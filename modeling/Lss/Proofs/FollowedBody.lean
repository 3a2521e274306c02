import Lss.Proofs.ComparedBody
import Lss.Proofs.Followed

/-!
# Bodies from two pools

Whatever lowers in one environment lowers in every other that has at least the same declarations,
with the same slots, targets and counts.
-/
namespace Lss

open Lower

/-! What two environments have in common. -/

structure Declared.Below (e f : Declared) : Prop where
  globals : ∀ name i, e.globals.find? name = some i → f.globals.find? name = some i
  functions : ∀ (name : String) (count : UInt8), e.functions[name]? = some count →
    f.functions[name]? = some count
  classes : ∀ (name : String) (l : ClassLayout), e.classes[name]? = some l →
    ∃ m, f.classes[name]? = some m ∧ l.Alike m
  lineNumbers : e.lineNumbers = f.lineNumbers

structure Env.Below (e f : Env) : Prop extends e.toDeclared.Below f.toDeclared where
  owner : Option.Rel ClassLayout.Alike e.owner f.owner

/-! Expressions. -/

/-- Runs from two pools: what follows another run does at least as much. -/
def Lower.Comparison.following : Comparison where
  World := Pool × Pool
  Later w w' := w.1.Extends w'.1 ∧ w.2.Extends w'.2
  Rel w f g R := Follows w.1 w.2 f g fun p q => R (p, q)
  Calm := Interning
  Lenient := True
  Name _ := True
  Symbol w := SymbolId.Alike w.1 w.2
  Text w := StringId.Alike w.1 w.2
  composes := composes_interning
  later_trans h k := ⟨h.1.trans k.1, h.2.trans k.2⟩
  symbol_later h hlater := h.mono hlater.1 hlater.2
  pure h := .pure h
  throw := .throw
  miss _ := .throw
  bind h hi hk := h.bind hi fun p q a b hp hq hr => hk (p, q) a b ⟨hp, hq⟩ hr
  symbol _ := .symbol _
  string := .string _
  warn := .warn _ _

namespace Lower.Comparison

variable {w : Pool × Pool}

theorem name?_of_refers {r s : Reference} (h : following.Refers w r s) :
    ∃ name, w.1.name? r = some name ∧ w.2.name? s = some name := by
  cases h with
  | symbol h => exact h
  | string h => exact h

/-- The same form, and names that are the same one by one. -/
theorem alike_of_refers {i j : Instruction} (hform : i.form = j.form)
    (h : List.Forall₂ (following.Refers w) i.references j.references) : i.Alike w.1 w.2 j := by
  refine ⟨hform, ?_⟩
  generalize i.references = rs, j.references = ss at h
  induction h with
  | nil => exact ⟨[], rfl, rfl⟩
  | cons hrs _ ih =>
    obtain ⟨name, hr, hs⟩ := name?_of_refers hrs
    obtain ⟨names, hleft, hright⟩ := ih
    refine ⟨name :: names, ?_, ?_⟩
    · rw [List.map_cons, List.map_cons, hr, hleft]
    · rw [List.map_cons, List.map_cons, hs, hright]

theorem forms_alike : following.Forms fun (w : Pool × Pool) => Code.Alike w.1 w.2 where
  later h hlater := h.mono hlater.1 hlater.2
  nil := .nil
  append := .append
  one hform href := .one (alike_of_refers hform href)
  size_eq := Code.Alike.size_eq

end Lower.Comparison

section

variable {p q : Pool} {e f : Env}

theorem Env.Below.environments (h : e.Below f) : Comparison.following.Environments e f where
  owner := h.owner
  functions name := by
    cases hf : e.functions[name]? with
    | none => exact .inr ⟨trivial, rfl⟩
    | some count => exact .inl (h.functions name count hf).symm
  classes name := by
    cases hl : e.classes[name]? with
    | none => exact .inr ⟨trivial, rfl⟩
    | some l =>
      obtain ⟨m, hm, hlm⟩ := h.classes name l hl
      rw [hm]
      exact .inl (.some hlm)
  names _ _ := trivial

theorem readGlobal_follows (h : e.Below f) (t : Token) :
    Follows p q (readGlobal e t) (readGlobal f t) fun _ _ a b => a = b := by
  unfold readGlobal
  cases hi : e.globals.find? t.text with
  | none => exact .throw
  | some i =>
    rw [h.globals _ _ hi]
    exact .pure rfl

theorem Env.Below.surroundings (h : e.Below f) : Comparison.following.Surroundings e f where
  toEnvironments := h.environments
  globals t _ := readGlobal_follows h t
  lineNumbers := h.lineNumbers
  all _ := trivial

/-- A body that lowers in one environment lowers in the other. -/
theorem lowerSubroutine_follows (h : e.Below f) (s : Subroutine) :
    Follows p q (lowerSubroutine e s) (lowerSubroutine f s) Code.Alike :=
  lowerSubroutine_compares Comparison.forms_alike h.surroundings s (p, q)

end

end Lss
