import Lss.Container.Link
import Lss.Proofs.LoweredBody
import Lss.Proofs.Basic

/-!
# Linking

Linking replaces calls by name and nothing else. It keeps sizes, so the places that it hands out
stay right, and it keeps the shape of code.
-/
namespace Lss

namespace Instruction

def linked (place : String → UInt32) : Instruction → Instruction
  | .unresolvedCall f argc => .callFunction (place f) argc
  | i => i

variable (place : String → UInt32)

@[simp] theorem takes_linked (i : Instruction) : (i.linked place).takes = i.takes := by
  cases i <;> rfl

@[simp] theorem isOperator_linked (i : Instruction) :
    (i.linked place).isOperator = i.isOperator := by
  cases i <;> rfl

@[simp] theorem isStore_linked (i : Instruction) : (i.linked place).isStore = i.isStore := by
  cases i <;> rfl

@[simp] theorem size_linked (i : Instruction) : (i.linked place).size = i.size := by
  cases i <;> rfl

theorem linked_eq_self {i : Instruction} (h : ∀ f argc, i ≠ .unresolvedCall f argc) :
    i.linked place = i := by
  cases i with
  | unresolvedCall f argc => exact absurd rfl (h f argc)
  | _ => rfl

end Instruction

namespace Code

def linked (place : String → UInt32) (code : Code) : Code := code.map (Instruction.linked place)

variable {place : String → UInt32}

@[simp] theorem linked_nil : Code.linked place [] = [] := rfl

@[simp] theorem linked_cons (i : Instruction) (code : Code) :
    Code.linked place (i :: code) = i.linked place :: Code.linked place code := rfl

@[simp] theorem linked_append (a b : Code) :
    Code.linked place (a ++ b) = Code.linked place a ++ Code.linked place b := List.map_append

@[simp] theorem size_linked (place : String → UInt32) (code : Code) :
    Code.size (Code.linked place code) = Code.size code := by
  induction code with
  | nil => rfl
  | cons i code ih => simp [ih]

theorem linked_eq_self {code : Code} (h : ∀ f argc, .unresolvedCall f argc ∉ code) :
    Code.linked place code = code := by
  induction code with
  | nil => rfl
  | cons i code ih =>
    have hi : i.linked place = i := by
      refine Instruction.linked_eq_self place fun f argc hf => h f argc ?_
      rw [hf]
      exact List.mem_cons_self
    rw [linked_cons, hi, ih fun f argc hf => h f argc (List.mem_cons_of_mem i hf)]

end Code

section

variable {P Q : Instruction → Prop} {place : String → UInt32}

theorem Pushes.linked {n : Nat} {code : Code} (hpq : ∀ i, P i → Q (i.linked place))
    (h : Pushes P n code) : Pushes Q n (Code.linked place code) := by
  induction h with
  | nil => exact .nil
  | @apply _ _ i _ hop hp ih =>
    rw [Code.linked_append]
    rw [← Instruction.takes_linked place i] at ih
    exact ih.apply (by rwa [Instruction.isOperator_linked]) (hpq _ hp)
  | dup _ ih =>
    rw [Code.linked_append]
    exact ih.dup
  | construct _ _ hc hl ih iha =>
    simp only [Code.linked_append]
    exact ih.construct iha (hpq _ hc) (hpq _ hl)

theorem Shaped.linked {sk : List Skeleton} {code : Code} (hpq : ∀ i, P i → Q (i.linked place))
    (h : Shaped P sk code) : Shaped Q sk (Code.linked place code) := by
  induction h with
  | nil => exact .nil
  | append _ _ iha ihb =>
    rw [Code.linked_append]
    exact iha.append ihb
  | mark line => exact .mark line
  | @store _ i hv hs hp =>
    rw [Code.linked_append]
    have hv := hv.linked hpq
    rw [← Instruction.takes_linked place i] at hv
    exact .store hv (by rwa [Instruction.isStore_linked]) (hpq _ hp)
  | drop hv =>
    rw [Code.linked_append]
    exact .drop (hv.linked hpq)
  | return_ hv =>
    rw [Code.linked_append]
    exact .return_ (hv.linked hpq)
  | @if_ _ _ body _ ht _ hd ih =>
    rw [← Code.size_linked place body] at hd
    rw [Code.linked_append]
    exact .if_ (ht.linked hpq) ih hd
  | @ifElse _ _ body _ arm _ _ ht _ _ hd he iha ihb =>
    rw [← Code.size_linked place body] at hd
    rw [← Code.size_linked place arm] at he
    simp only [Code.linked_append]
    exact .ifElse (ht.linked hpq) iha ihb hd he
  | @while_ test _ body _ _ ht _ ho hb ih =>
    rw [← Code.size_linked place body] at ho hb
    rw [← Code.size_linked place test] at hb
    simp only [Code.linked_append]
    exact .while_ (ht.linked hpq) ih ho hb
  | @doWhile _ body test _ _ ht hb ih =>
    rw [← Code.size_linked place body, ← Code.size_linked place test] at hb
    simp only [Code.linked_append]
    exact .doWhile ih (ht.linked hpq) hb

theorem Closed.linked {sk : List Skeleton} {code : Code} (hpq : ∀ i, P i → Q (i.linked place))
    (h : Closed P sk code) : Closed Q sk (Code.linked place code) := by
  obtain ⟨a, x, value, rfl, rfl, hx, hv⟩ := h
  refine ⟨a, Code.linked place x, Code.linked place value, rfl, ?_, hx.linked hpq, hv.linked hpq⟩
  simp only [Code.linked_append]
  rfl

theorem Code.linked_prologue (isMethod : Bool) (count : UInt8) (extra : UInt16) :
    Code.linked place (Code.prologue isMethod count extra) =
      Code.prologue isMethod count extra := by
  refine Code.linked_eq_self fun f argc h => ?_
  unfold Code.prologue at h
  rw [List.mem_append] at h
  rcases h with h | h <;> split at h <;> simp at h

theorem BodyOf.linked {P Q : Nat → Instruction → Prop} {isMethod : Bool} {s : Subroutine}
    {code : Code} (hpq : ∀ n ≤ Draft.maxLocals, ∀ i, P n i → Q n (i.linked place))
    (h : BodyOf P isMethod s code) : BodyOf Q isMethod s (Code.linked place code) := by
  obtain ⟨count, extra, body, hcount, hmax, rfl, hbody⟩ := h
  refine ⟨count, extra, Code.linked place body, hcount, hmax, ?_, hbody.linked (hpq _ hmax)⟩
  rw [Code.linked_append, Code.linked_prologue]

end

namespace Code

def placeIn (targets : Std.TreeMap String Nat) (f : String) : UInt32 :=
  UInt32.ofNat (targets[f]?.getD 0)

theorem linkOnto_eq {targets : Std.TreeMap String Nat} {acc code result : Code}
    (h : linkOnto targets acc code = .ok result) :
    result = acc.reverse ++ Code.linked (placeIn targets) code := by
  fun_induction linkOnto targets acc code with
  | case1 acc =>
    cases h
    simp
  | case2 acc f argc code offset hf ih =>
    rw [ih h]
    simp [Instruction.linked, placeIn, hf]
  | case3 => cases h
  | case4 acc i code hi ih =>
    have hi : i.linked (placeIn targets) = i :=
      Instruction.linked_eq_self _ fun f argc => hi f argc
    rw [ih h]
    simp [hi]

theorem link_eq {targets : Std.TreeMap String Nat} {code result : Code}
    (h : link targets code = .ok result) : result = Code.linked (placeIn targets) code :=
  linkOnto_eq h

end Code

end Lss
