import Lss.Proofs.Composed
import Lss.Proofs.Contract

/-!
# Lowering interns and nothing else

Whatever is lowered, and whether it succeeds or fails, the tables of a pool change only by names
that are interned one after another. What interning keeps, lowering keeps.
-/
namespace Lss

namespace NameTable

theorem extends_intern (t : NameTable) (name : String) : t.Extends (t.intern name).2 := by
  unfold intern
  split
  · exact .refl t
  · split
    · exact extends_push t name
    · exact .refl t

end NameTable

namespace Pool

variable {p q r : Pool}

inductive Interns (p : Pool) : Pool → Prop
  | refl : Interns p p
  | string {strings symbols : NameTable} {warnings : List Diagnostic} (value : String) :
      Interns p ⟨strings, symbols, warnings⟩ →
      Interns p ⟨(strings.intern value).2, symbols, warnings⟩
  | symbol {strings symbols : NameTable} {warnings : List Diagnostic} (name : String) :
      Interns p ⟨strings, symbols, warnings⟩ →
      Interns p ⟨strings, (symbols.intern name).2, warnings⟩
  | warn {strings symbols : NameTable} {warnings : List Diagnostic} (more : List Diagnostic) :
      Interns p ⟨strings, symbols, warnings⟩ → Interns p ⟨strings, symbols, more⟩

theorem Interns.trans (h : p.Interns q) (k : q.Interns r) : p.Interns r := by
  induction k with
  | refl => exact h
  | string value _ ih => exact ih.string value
  | symbol name _ ih => exact ih.symbol name
  | warn more _ ih => exact ih.warn more

theorem Interns.extends (h : p.Interns q) : p.Extends q := by
  induction h with
  | refl => exact .refl p
  | string value _ ih => exact ⟨ih.strings.trans (NameTable.extends_intern _ value), ih.symbols⟩
  | symbol name _ ih => exact ⟨ih.strings, ih.symbols.trans (NameTable.extends_intern _ name)⟩
  | warn more _ ih => exact ⟨ih.strings, ih.symbols⟩

end Pool

namespace Lower

variable {α β : Type} {f : Lower α}

def Interning (f : Lower α) : Prop := ∀ p : Pool, p.Interns (f.run.run p).2

theorem Interning.of_run (h : Interning f) {p q : Pool} {r : Except CompileError α}
    (hf : f.run.run p = (r, q)) : p.Interns q := by
  have hp := h p
  rwa [hf] at hp

theorem Interning.pure (a : α) : Interning (pure a) := fun _ => .refl

theorem Interning.throw (e : CompileError) : Interning (throw e : Lower α) := fun _ => .refl

theorem Interning.bind {g : α → Lower β} (hf : Interning f) (hg : ∀ a, Interning (g a)) :
    Interning (f >>= g) := by
  intro p
  have hp := hf p
  rw [run_bind]
  generalize f.run.run p = r at hp
  obtain ⟨e | a, q⟩ := r
  · exact hp
  · exact hp.trans (hg a q)

theorem Interning.foldlM {step : β → α → Lower β}
    (hstep : ∀ b a, Interning (step b a)) (as : List α) (b : β) :
    Interning (as.foldlM step b) := by
  induction as generalizing b with
  | nil => exact .pure b
  | cons a as ih =>
    rw [List.foldlM_cons]
    exact (hstep b a).bind ih

theorem Interning.symbol (name : String) : Interning (symbol name) := by
  rintro ⟨strings, symbols, warnings⟩
  have hrun : ((Lower.symbol name).run.run ⟨strings, symbols, warnings⟩).2
      = ⟨strings, (symbols.intern name).2, warnings⟩ := by
    show (Lower.symbol name ⟨strings, symbols, warnings⟩).2 = _
    rcases hi : symbols.intern name with ⟨e | i, grown⟩ <;> simp only [Lower.symbol, hi]
  rw [hrun]
  exact .symbol name .refl

theorem Interning.string (value : String) : Interning (string value) := by
  rintro ⟨strings, symbols, warnings⟩
  have hrun : ((Lower.string value).run.run ⟨strings, symbols, warnings⟩).2
      = ⟨(strings.intern value).2, symbols, warnings⟩ := by
    show (Lower.string value ⟨strings, symbols, warnings⟩).2 = _
    rcases hi : strings.intern value with ⟨e | i, grown⟩ <;> simp only [Lower.string, hi]
  rw [hrun]
  exact .string value .refl

theorem Interning.warn (d : Diagnostic) : Interning (warn d) := by
  rintro ⟨strings, symbols, warnings⟩
  exact .warn (d :: warnings) .refl

end Lower

open Lower

theorem composes_interning : Composes fun f => Interning f where
  pure := .pure
  throw := .throw
  bind := .bind
  symbol := .symbol
  string := .string
  warn _ _ := .warn _

section

variable {env : Env}

theorem lower_interning (scopes : Scopes) (e : Expr) : Interning (lower env scopes e) :=
  lower_composed composes_interning scopes e

theorem lowerStmt_interning (s : Stmt) (scopes : Scopes) : Interning (lowerStmt env scopes s) :=
  lowerStmt_composed composes_interning s scopes

/-- A body changes tables only by what it interns. -/
theorem lowerSubroutine_interning (s : Subroutine) : Interning (lowerSubroutine env s) :=
  lowerSubroutine_composed composes_interning s

end

end Lss
