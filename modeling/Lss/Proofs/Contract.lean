import Lss.Lowering.Expr
import Lss.Proofs.Tables
import Lss.Proofs.Shape

/-!
# Contracts of lowering

A computation that fills a pool only adds to its tables. Its contract says what a successful run
gives; what is said of operands is said against the tables at its end, and stays true when they
grow further.
-/
namespace Lss

/-- What operands may refer to: so many strings, symbols, globals and locals, and functions with
so many parameters. -/
structure Limits where
  strings : Nat
  symbols : Nat
  globals : Nat
  locals : Nat
  functions : String → Option UInt8

structure Limits.Below (L M : Limits) : Prop where
  strings : L.strings ≤ M.strings
  symbols : L.symbols ≤ M.symbols
  globals : L.globals ≤ M.globals
  locals : L.locals ≤ M.locals
  functions : ∀ f argc, L.functions f = some argc → M.functions f = some argc

theorem Slot.toNat_index_le (s : Slot) : s.index.toNat ≤ s.val.toNat := by
  rw [Slot.index, UInt16.toNat_and]
  exact Nat.and_le_left

def Slot.Fits (L : Limits) (s : Slot) : Prop :=
  (∃ i : UInt16, s = .ofLocal i ∧ i.toNat < L.locals) ∨
    (∃ i : UInt16, s = .ofGlobal i ∧ i.toNat < L.globals)

def Instruction.Fits (L : Limits) : Instruction → Prop
  | .pushString s => s.index.toNat < L.strings
  | .getVariable s | .setVariable s => s.Fits L
  | .getMember m | .setMember m | .getThisMember m | .setThisMember m | .createObject m
  | .lookupMethod m | .getDynamicGameVariable m | .callDynamicGameFunction m _ | .callMethod m _
  | .callThisMethod m _ => m.index.toNat < L.symbols
  | .getGameVariable s n | .setGameVariable s n | .callGameFunction s n _ =>
    s.index.toNat < L.symbols ∧ n.index.toNat < L.symbols
  | .unresolvedCall f argc => L.functions f = some argc
  | .callFunction _ _ => False
  | _ => True

theorem Slot.Fits.mono {L M : Limits} (hlm : L.Below M) {s : Slot} (h : s.Fits L) : s.Fits M := by
  rcases h with ⟨i, rfl, hi⟩ | ⟨i, rfl, hi⟩
  · exact Or.inl ⟨i, rfl, Nat.lt_of_lt_of_le hi hlm.locals⟩
  · exact Or.inr ⟨i, rfl, Nat.lt_of_lt_of_le hi hlm.globals⟩

theorem Instruction.Fits.mono {L M : Limits} (hlm : L.Below M) (i : Instruction) (h : i.Fits L) :
    i.Fits M := by
  have hsymbol {s : SymbolId} (hs : s.index.toNat < L.symbols) : s.index.toNat < M.symbols :=
    Nat.lt_of_lt_of_le hs hlm.symbols
  cases i with
  | pushString => exact Nat.lt_of_lt_of_le h hlm.strings
  | getVariable | setVariable => exact Slot.Fits.mono hlm h
  | getMember | setMember | getThisMember | setThisMember | createObject | lookupMethod
  | getDynamicGameVariable | callDynamicGameFunction | callMethod | callThisMethod =>
    exact hsymbol h
  | getGameVariable | setGameVariable | callGameFunction => exact ⟨hsymbol h.1, hsymbol h.2⟩
  | unresolvedCall f argc => exact hlm.functions f argc h
  | _ => exact h

namespace Pool

variable {p q r : Pool}

structure Exact (p : Pool) : Prop where
  strings : p.strings.Exact
  symbols : p.symbols.Exact

structure Extends (p q : Pool) : Prop where
  strings : p.strings.Extends q.strings
  symbols : p.symbols.Extends q.symbols

theorem Extends.refl (p : Pool) : p.Extends p := ⟨.refl _, .refl _⟩

theorem Extends.trans (h : p.Extends q) (k : q.Extends r) : p.Extends r :=
  ⟨h.strings.trans k.strings, h.symbols.trans k.symbols⟩

def limits (p : Pool) (env : Env) (n : Nat) : Limits :=
  ⟨p.strings.size, p.symbols.size, env.globals.size, n, fun f => env.functions[f]?⟩

theorem Extends.below (h : p.Extends q) (env : Env) {n m : Nat} (hn : n ≤ m) :
    (p.limits env n).Below (q.limits env m) :=
  ⟨h.strings.size_le, h.symbols.size_le, Nat.le_refl _, hn, fun _ _ hf => hf⟩

end Pool

namespace Lower

variable {α β : Type} {p q : Pool}

/-- Every successful run from `p` adds to the tables and gives what `Q` says of the tables and of
the result. -/
def Meets (p : Pool) (f : Lower α) (Q : Pool → α → Prop) : Prop :=
  p.Exact → ∀ a q, f.run.run p = (.ok a, q) → q.Exact ∧ p.Extends q ∧ Q q a

theorem Meets.pure {a : α} {Q : Pool → α → Prop} (h : Q p a) : Meets p (pure a) Q := by
  intro hp b q hb
  cases hb
  exact ⟨hp, .refl p, h⟩

theorem Meets.throw {e : CompileError} {Q : Pool → α → Prop} :
    Meets p (throw e : Lower α) Q := by
  intro _ b q hb
  cases hb

theorem run_bind (f : Lower α) (g : α → Lower β) (p : Pool) :
    (f >>= g).run.run p = match f.run.run p with
      | (.ok a, q) => (g a).run.run q
      | (.error e, q) => (.error e, q) := by
  simp only [ExceptT.run_bind, StateT.run_bind]
  rcases f.run.run p with ⟨a | e, q⟩ <;> rfl

theorem run_bind_eq_ok {f : Lower α} {g : α → Lower β} {q : Pool} {b : β} :
    (f >>= g).run.run p = (.ok b, q) ↔
      ∃ a r, f.run.run p = (.ok a, r) ∧ (g a).run.run r = (.ok b, q) := by
  rw [run_bind]
  constructor
  · intro h
    split at h
    · next a r ha => exact ⟨a, r, ha, h⟩
    · cases h
  · rintro ⟨a, r, ha, h⟩
    rw [ha]
    exact h

theorem Meets.bind {f : Lower α} {g : α → Lower β} {R : Pool → α → Prop} {Q : Pool → β → Prop}
    (hf : Meets p f R) (hg : ∀ q a, p.Extends q → R q a → Meets q (g a) Q) :
    Meets p (f >>= g) Q := by
  intro hp b r hb
  obtain ⟨a, q, ha, hb⟩ := run_bind_eq_ok.mp hb
  obtain ⟨hq, hpq, hr⟩ := hf hp a q ha
  obtain ⟨hr, hqr, hb⟩ := hg q a hpq hr hq b r hb
  exact ⟨hr, hpq.trans hqr, hb⟩

theorem Meets.runs {f : Lower α} {Q : Pool → α → Prop} (hf : Meets p f Q) :
    Meets p f fun q a => f.run.run p = (.ok a, q) ∧ Q q a := by
  intro hp a q hrun
  obtain ⟨hq, hpq, ha⟩ := hf hp a q hrun
  exact ⟨hq, hpq, hrun, ha⟩

theorem Meets.imp {f : Lower α} {Q R : Pool → α → Prop} (hf : Meets p f Q)
    (h : ∀ q a, p.Extends q → Q q a → R q a) : Meets p f R := by
  intro hp a q ha
  obtain ⟨hq, hpq, hr⟩ := hf hp a q ha
  exact ⟨hq, hpq, h q a hpq hr⟩

theorem Meets.map {f : Lower α} {g : α → β} {Q : Pool → β → Prop}
    (hf : Meets p f fun q a => Q q (g a)) : Meets p (g <$> f) Q := by
  rw [map_eq_pure_bind]
  exact hf.bind fun q a _ h => .pure h

theorem Meets.ofExcept (f : Except CompileError α) : Meets p (ofExcept f) fun _ a => f = .ok a := by
  cases f with
  | ok a => exact .pure rfl
  | error e => exact .throw

theorem Meets.symbol (name : String) :
    Meets p (symbol name) fun q s => q.symbols.get? s.index = some name := by
  intro hp s q hs
  obtain ⟨strings, symbols, warnings⟩ := p
  have hs : Lower.symbol name ⟨strings, symbols, warnings⟩ = (.ok s, q) := hs
  simp only [Lower.symbol] at hs
  split at hs
  · next i t hi =>
    cases hs
    obtain ⟨ht, hext, hget⟩ := hp.symbols.intern hi
    exact ⟨⟨hp.strings, ht⟩, ⟨.refl _, hext⟩, hget⟩
  · cases hs

theorem Meets.string (value : String) :
    Meets p (string value) fun q s => q.strings.get? s.index = some value := by
  intro hp s q hs
  obtain ⟨strings, symbols, warnings⟩ := p
  have hs : Lower.string value ⟨strings, symbols, warnings⟩ = (.ok s, q) := hs
  simp only [Lower.string] at hs
  split at hs
  · next i t hi =>
    cases hs
    obtain ⟨ht, hext, hget⟩ := hp.strings.intern hi
    exact ⟨⟨ht, hp.symbols⟩, ⟨hext, .refl _⟩, hget⟩
  · cases hs

theorem Meets.warn (d : Diagnostic) : Meets p (warn d) fun _ _ => True := by
  intro hp _ q hq
  cases hq
  exact ⟨⟨hp.strings, hp.symbols⟩, ⟨.refl _, .refl _⟩, trivial⟩

end Lower

end Lss
