import Lss.Proofs.Interned
import Lss.Proofs.Outlined

/-!
# Lowering an expression again

An expression that was lowered once finds all its names in the tables from then on. Lowered again,
however much was interned in between, it gives the same code and adds no name.
-/
namespace Lss

theorem NameTable.find?_of_intern {t u : NameTable} {name : String} {i : UInt16}
    (h : t.intern name = (.ok i, u)) : u.find? name = some i := by
  unfold NameTable.intern at h
  split at h
  · next hi =>
    cases h
    exact hi
  · next hnone =>
    split at h
    · cases h
      have hnew : name ∉ t.index := by
        rw [Std.TreeMap.mem_iff_isSome_getElem?, ← find?, hnone]
        exact Bool.false_ne_true
      simp only [find?, NameTable.push, Std.TreeMap.getElem?_insertIfNew]
      rw [if_pos ⟨Std.ReflCmp.compare_self, hnew⟩]
      rfl
    · cases h

namespace Pool

variable {p q r : Pool}

theorem Interns.find?_strings (h : p.Interns q) {name : String} {i : UInt16}
    (hi : p.strings.find? name = some i) : q.strings.find? name = some i := by
  induction h with
  | refl => exact hi
  | string value _ ih => exact NameTable.find?_intern value ih
  | symbol _ _ ih => exact ih
  | warn _ _ ih => exact ih

theorem Interns.find?_symbols (h : p.Interns q) {name : String} {i : UInt16}
    (hi : p.symbols.find? name = some i) : q.symbols.find? name = some i := by
  induction h with
  | refl => exact hi
  | string _ _ ih => exact ih
  | symbol name _ ih => exact NameTable.find?_intern name ih
  | warn _ _ ih => exact ih

structure SameTables (p q : Pool) : Prop where
  strings : p.strings = q.strings
  symbols : p.symbols = q.symbols

theorem SameTables.refl (p : Pool) : p.SameTables p := ⟨rfl, rfl⟩

theorem SameTables.trans (h : p.SameTables q) (k : q.SameTables r) : p.SameTables r :=
  ⟨h.strings.trans k.strings, h.symbols.trans k.symbols⟩

theorem Interns.sameTables (h : p.Interns q) (k : q.SameTables r) : p.Interns r := by
  obtain ⟨strings, symbols, warnings⟩ := q
  obtain ⟨strings', symbols', warnings'⟩ := r
  obtain ⟨rfl, rfl⟩ := k
  exact .warn warnings' h

end Pool

namespace Lower

variable {α β : Type} {f : Lower α} {p q r : Pool} {a : α}

/-- What succeeded once gives the same from every later pool, and leaves its tables. -/
structure Repeats (f : Lower α) : Prop where
  interning : Interning f
  again : ∀ p a q, f.run.run p = (.ok a, q) → ∀ r : Pool, q.Interns r →
    ∃ r' : Pool, f.run.run r = (.ok a, r') ∧ r.SameTables r'

theorem Repeats.pure (a : α) : Repeats (pure a) := by
  refine ⟨.pure a, fun p b q hb r hr => ?_⟩
  cases hb
  exact ⟨r, rfl, .refl r⟩

theorem Repeats.throw (e : CompileError) : Repeats (throw e : Lower α) := by
  refine ⟨.throw e, fun p b q hb => ?_⟩
  cases hb

theorem Repeats.bind {g : α → Lower β} (hf : Repeats f) (hg : ∀ a, Repeats (g a)) :
    Repeats (f >>= g) := by
  refine ⟨hf.interning.bind fun a => (hg a).interning, fun p b q hb r hr => ?_⟩
  obtain ⟨a, q', ha, hb⟩ := run_bind_eq_ok.mp hb
  obtain ⟨r', ha', hsame⟩ := hf.again p a q' ha r (((hg a).interning.of_run hb).trans hr)
  obtain ⟨r'', hb', hsame'⟩ := (hg a).again q' b q hb r' (hr.sameTables hsame)
  exact ⟨r'', run_bind_eq_ok.mpr ⟨a, r', ha', hb'⟩, hsame.trans hsame'⟩

theorem repeats_symbol (name : String) : Repeats (symbol name) := by
  refine ⟨.symbol name, ?_⟩
  rintro ⟨strings, symbols, warnings⟩ s q hs ⟨strings', symbols', warnings'⟩ hr
  have hs : Lower.symbol name ⟨strings, symbols, warnings⟩ = (.ok s, q) := hs
  simp only [Lower.symbol] at hs
  split at hs
  · next i t hi =>
    cases hs
    have hfind : symbols'.find? name = some i := hr.find?_symbols (NameTable.find?_of_intern hi)
    have hagain : symbols'.intern name = (.ok i, symbols') := by
      unfold NameTable.intern
      rw [hfind]
    refine ⟨⟨strings', symbols', warnings'⟩, ?_, .refl _⟩
    show Lower.symbol name ⟨strings', symbols', warnings'⟩ = _
    simp only [Lower.symbol, hagain]
  · cases hs

theorem repeats_string (value : String) : Repeats (string value) := by
  refine ⟨.string value, ?_⟩
  rintro ⟨strings, symbols, warnings⟩ s q hs ⟨strings', symbols', warnings'⟩ hr
  have hs : Lower.string value ⟨strings, symbols, warnings⟩ = (.ok s, q) := hs
  simp only [Lower.string] at hs
  split at hs
  · next i t hi =>
    cases hs
    have hfind : strings'.find? value = some i := hr.find?_strings (NameTable.find?_of_intern hi)
    have hagain : strings'.intern value = (.ok i, strings') := by
      unfold NameTable.intern
      rw [hfind]
    refine ⟨⟨strings', symbols', warnings'⟩, ?_, .refl _⟩
    show Lower.string value ⟨strings', symbols', warnings'⟩ = _
    simp only [Lower.string, hagain]
  · cases hs

theorem repeats_warn (d : Diagnostic) : Repeats (warn d) := by
  refine ⟨.warn d, fun p a q ha r _ => ?_⟩
  exact ⟨⟨r.strings, r.symbols, d :: r.warnings⟩, rfl, rfl, rfl⟩

theorem composes_repeats : Composes fun f => Repeats f where
  pure := .pure
  throw := .throw
  bind := .bind
  symbol := repeats_symbol
  string := repeats_string
  warn _ _ := repeats_warn _

end Lower

/-- Code of an expression can be had again. -/
theorem lower_repeats {env : Env} (scopes : Scopes) (e : Expr) :
    Lower.Repeats (lower env scopes e) :=
  lower_composed Lower.composes_repeats scopes e

end Lss
