import Lss.Proofs.EmitsBody
import Lss.Proofs.Sites

/-!
# Code with and without line numbers

Two codes side by side, one of them with line numbers between its instructions. The others are the
same one by one, and branches lead to corresponding places, however far these are apart in bytes.
-/
namespace Lss

namespace Instruction

def isMark : Instruction → Bool
  | .lineNumber _ => true
  | _ => false

def isPlain : Instruction → Bool
  | .branch _ _ | .callFunction _ _ | .lineNumber _ => false
  | _ => true

/-- The same instruction but for where branches and calls lead. Which places of calls belong
together is left open. -/
def Matches (calls : UInt32 → UInt32 → Prop) : Instruction → Instruction → Prop
  | .branch kind _, .branch kind' _ => kind = kind'
  | .callFunction t argc, .callFunction t' argc' => calls t t' ∧ argc = argc'
  | i, j => i = j

variable {calls : UInt32 → UInt32 → Prop} {i j : Instruction}

theorem matches_self (h : i.isPlain) : i.Matches calls i := by
  cases i <;> first | rfl | cases h

theorem Matches.of_branch {kind : BranchKind} {d : Int16}
    (h : i.Matches calls (.branch kind d)) : ∃ d', i = .branch kind d' := by
  cases i <;> cases h
  exact ⟨_, rfl⟩

theorem isPlain_of_isConstant (h : i.isConstant) : i.isPlain := by
  cases i <;> first | rfl | cases h

theorem isPlain_of_isPrologue (h : i.isPrologue) : i.isPlain := by
  cases i <;> first | rfl | cases h

theorem not_isMark_of_isPlain (h : i.isPlain) : i.isMark = false := by
  cases i <;> first | rfl | cases h

theorem not_branch_of_isPlain (h : i.isPlain) (kind : BranchKind) (d : Int16) :
    i ≠ .branch kind d := by
  rintro rfl
  cases h

/-- Linking keeps instructions matched if it finds corresponding places for calls. -/
theorem Matches.linked (h : i.Matches (fun _ _ => False) j) {place place' : String → UInt32}
    (hcalls : ∀ f argc, i = .unresolvedCall f argc → calls (place f) (place' f)) :
    (i.linked place).Matches calls (j.linked place') := by
  cases i with
  | unresolvedCall f argc =>
    cases j <;> cases h
    exact ⟨hcalls f argc rfl, rfl⟩
  | callFunction t argc => cases j <;> first | cases h.1 | cases h
  | branch kind d =>
    cases j <;> cases h
    rfl
  | _ =>
    cases j <;> cases h
    all_goals rfl

end Instruction

namespace Code

def unmarked (code : Code) : Code := code.filter fun i => !i.isMark

/-- The number of an instruction when line numbers do not count. A line number has that of the next
other instruction. -/
def rank (code : Code) (j : Nat) : Nat := (unmarked (code.take j)).length

/-- The code `a` is `b` with the line numbers taken out: the other instructions are the same, and a
branch leads to the same one. -/
structure Unmarks (calls : UInt32 → UInt32 → Prop) (a b : Code) : Prop where
  same : List.Forall₂ (Instruction.Matches calls) a b.unmarked
  lands : ∀ j kind d, b[j]? = some (.branch kind d) → ∃ d' t,
    a[b.rank j]? = some (.branch kind d') ∧ t ≤ b.length ∧
      (b.offset (j + 1) : Int) + d.toInt = b.offset t ∧
      (a.offset (b.rank j + 1) : Int) + d'.toInt = a.offset (b.rank t)

@[simp] theorem unmarked_nil : unmarked [] = [] := rfl

@[simp] theorem unmarked_append (a b : Code) : unmarked (a ++ b) = unmarked a ++ unmarked b :=
  List.filter_append ..

@[simp] theorem unmarked_lineNumber (line : UInt16) (code : Code) :
    unmarked (.lineNumber line :: code) = unmarked code := rfl

@[simp] theorem unmarked_branch (kind : BranchKind) (d : Int16) (code : Code) :
    unmarked (.branch kind d :: code) = .branch kind d :: unmarked code := rfl

theorem unmarked_cons {i : Instruction} (h : i.isMark = false) (code : Code) :
    unmarked (i :: code) = i :: unmarked code := by
  unfold unmarked
  rw [List.filter_cons_of_pos (by rw [h]; rfl)]

def Plain (code : Code) : Prop := ∀ i ∈ code, i.isPlain

@[simp] theorem plain_nil : Plain [] := nofun

@[simp] theorem plain_append {a b : Code} : Plain (a ++ b) ↔ Plain a ∧ Plain b :=
  List.forall_mem_append

@[simp] theorem plain_cons {i : Instruction} {code : Code} :
    Plain (i :: code) ↔ i.isPlain ∧ Plain code := List.forall_mem_cons

theorem Plain.unmarked_eq {code : Code} (h : code.Plain) : code.unmarked = code :=
  List.filter_eq_self.mpr fun i hi => by rw [Instruction.not_isMark_of_isPlain (h i hi)]; rfl

/-! Rows of two codes. -/

/-- Instruction `i` behind `x` beside `j` behind `y`. If they branch, it is to corresponding places
in `up` and `up'`. -/
structure Row (up up' x y : Code) (i j : Instruction) : Prop where
  same : i.Matches (fun _ _ => False) j
  unmarked : j.isMark = false
  lands : ∀ kind d d', i = .branch kind d → j = .branch kind d' → ∃ u v,
    u <+: up ∧ v <+: up' ∧ u.length = (Code.unmarked v).length ∧
      (Code.size u : Int) = Code.size x + 3 + d.toInt ∧
      (Code.size v : Int) = Code.size y + 3 + d'.toInt

/-- Code behind `x` beside code behind `y`, which may have line numbers in it. -/
inductive Rows (up up' : Code) : Code → Code → Code → Code → Prop
  | nil {x y} : Rows up up' x y [] []
  | mark {x y a b} (line) : Rows up up' x (y ++ [Instruction.lineNumber line]) a b →
      Rows up up' x y a (.lineNumber line :: b)
  | cons {x y i j a b} : Row up up' x y i j → Rows up up' (x ++ [i]) (y ++ [j]) a b →
      Rows up up' x y (i :: a) (j :: b)

variable {up up' x y a b c d : Code}

theorem Row.mono {more more' : Code} (hup : up <+: more) (hup' : up' <+: more')
    {i j : Instruction} (h : Row up up' x y i j) : Row more more' x y i j := by
  refine ⟨h.same, h.unmarked, fun kind d d' hi hj => ?_⟩
  obtain ⟨u, v, hu, hv, hspec⟩ := h.lands kind d d' hi hj
  exact ⟨u, v, hu.trans hup, hv.trans hup', hspec⟩

theorem Rows.mono {more more' : Code} (hup : up <+: more) (hup' : up' <+: more')
    (h : Rows up up' x y a b) : Rows more more' x y a b := by
  induction h with
  | nil => exact .nil
  | mark line _ ih => exact .mark line ih
  | cons hrow _ ih => exact .cons (hrow.mono hup hup') ih

theorem Rows.append (h : Rows up up' x y a b) (k : Rows up up' (x ++ a) (y ++ b) c d) :
    Rows up up' x y (a ++ c) (b ++ d) := by
  induction h with
  | nil => simpa using k
  | mark line _ ih => exact .mark line (ih (by simpa using k))
  | cons hrow _ ih => exact .cons hrow (ih (by simpa using k))

theorem Rows.same (h : Rows up up' x y a b) :
    List.Forall₂ (Instruction.Matches fun _ _ => False) a b.unmarked := by
  induction h with
  | nil => exact .nil
  | mark line _ ih => exact ih
  | cons hrow _ ih =>
    rw [unmarked_cons hrow.unmarked]
    exact .cons hrow.same ih

theorem Rows.length_eq (h : Rows up up' x y a b) : a.length = b.unmarked.length :=
  h.same.length_eq

theorem Rows.mem_unresolvedCall (h : Rows up up' x y a b) {f : String} {argc : UInt8}
    (hmem : .unresolvedCall f argc ∈ a) : .unresolvedCall f argc ∈ b := by
  induction h with
  | nil => exact hmem
  | mark line _ ih => exact List.mem_cons_of_mem _ (ih hmem)
  | @cons _ _ i j _ _ hrow _ ih =>
    rcases List.mem_cons.mp hmem with rfl | hmem
    · have hj := hrow.same
      cases j <;> cases hj
      exact List.mem_cons_self
    · exact List.mem_cons_of_mem _ (ih hmem)

/-- An instruction beside its fellow. -/
theorem Rows.getElem? (h : Rows up up' x y a b) {k : Nat} {j : Instruction} (hj : b[k]? = some j)
    (hmark : j.isMark = false) : ∃ i, a[b.rank k]? = some i ∧
      Row up up' (x ++ a.take (b.rank k)) (y ++ b.take k) i j := by
  induction h generalizing k with
  | nil => cases hj
  | mark line _ ih =>
    cases k with
    | zero =>
      cases hj
      cases hmark
    | succ k =>
      obtain ⟨i, hi, hrow⟩ := ih hj
      exact ⟨i, hi, by simpa [rank] using hrow⟩
  | @cons x y i j' a b hrow _ ih =>
    cases k with
    | zero =>
      cases hj
      exact ⟨i, rfl, by simpa [rank] using hrow⟩
    | succ k =>
      obtain ⟨i', hi, hrow'⟩ := ih hj
      have hrank : rank (j' :: b) (k + 1) = b.rank k + 1 := by
        simp [rank, unmarked_cons hrow.unmarked]
      rw [hrank]
      exact ⟨i', hi, by simpa using hrow'⟩

/-! Linking moves nothing. -/

theorem isMark_linked (place : String → UInt32) (i : Instruction) :
    (i.linked place).isMark = i.isMark := by
  cases i <;> rfl

theorem unmarked_linked (place : String → UInt32) (code : Code) :
    unmarked (code.linked place) = code.unmarked.linked place := by
  unfold unmarked linked
  rw [List.filter_map]
  congr 2
  funext i
  rw [Function.comp_apply, isMark_linked]

theorem take_linked (place : String → UInt32) (code : Code) (k : Nat) :
    (code.linked place).take k = linked place (code.take k) := List.map_take.symm

theorem offset_linked (place : String → UInt32) (code : Code) (k : Nat) :
    offset (code.linked place) k = code.offset k := by
  rw [offset, take_linked, size_linked, offset]

theorem rank_linked (place : String → UInt32) (code : Code) (k : Nat) :
    rank (code.linked place) k = code.rank k := by
  rw [rank, take_linked, unmarked_linked, rank, linked, List.length_map]

theorem getElem?_linked_branch {place : String → UInt32} {code : Code} {k : Nat}
    {kind : BranchKind} {d : Int16} :
    (code.linked place)[k]? = some (.branch kind d) ↔ code[k]? = some (.branch kind d) := by
  rw [linked, List.getElem?_map]
  constructor
  · intro h
    obtain ⟨i, hi, hbranch⟩ := Option.map_eq_some_iff.mp h
    cases i <;> cases hbranch
    exact hi
  · intro h
    rw [h]
    rfl

/-- In rows of whole codes, a branch leads to the instruction beside that to which its fellow
leads. -/
theorem Rows.lands (h : Rows a b [] [] a b) {j : Nat} {kind : BranchKind} {d : Int16}
    (hj : b[j]? = some (.branch kind d)) : ∃ d' t, a[b.rank j]? = some (.branch kind d') ∧
      t ≤ b.length ∧ (b.offset (j + 1) : Int) + d.toInt = b.offset t ∧
      (a.offset (b.rank j + 1) : Int) + d'.toInt = a.offset (b.rank t) := by
  obtain ⟨i, hi, hrow⟩ := h.getElem? hj rfl
  obtain ⟨d', rfl⟩ := hrow.same.of_branch
  obtain ⟨u, v, hu, hv, hlength, hsizeu, hsizev⟩ := hrow.lands kind d' d rfl rfl
  have hu' : u = a.take u.length := List.prefix_iff_eq_take.mp hu
  have hv' : v = b.take v.length := List.prefix_iff_eq_take.mp hv
  have hrank : b.rank v.length = u.length := by rw [rank, ← hv', hlength]
  simp only [List.nil_append] at hsizeu hsizev
  refine ⟨d', v.length, hi, hv.length_le, ?_, ?_⟩
  · rw [offset_succ hj, Instruction.size_branch, offset, offset, ← hv']
    omega
  · rw [offset_succ hi, Instruction.size_branch, hrank, offset, offset, ← hu']
    omega

/-- Rows of whole codes, once the calls in them are linked. -/
theorem Rows.unmarks (h : Rows a b [] [] a b) {calls : UInt32 → UInt32 → Prop}
    {place place' : String → UInt32}
    (hcalls : ∀ f argc, .unresolvedCall f argc ∈ a → calls (place f) (place' f)) :
    Unmarks calls (a.linked place) (b.linked place') := by
  constructor
  · rw [unmarked_linked]
    unfold linked
    rw [List.forall₂_map_left_iff, List.forall₂_map_right_iff]
    refine List.forall₂_iff_get.mpr ⟨h.same.length_eq, fun k ha hb => ?_⟩
    have hk := (List.forall₂_iff_get.mp h.same).2 k ha hb
    exact hk.linked fun f argc hf => hcalls f argc (hf ▸ List.get_mem a ⟨k, ha⟩)
  · intro j kind d hj
    obtain ⟨d', t, hi, ht, hb, ha⟩ := h.lands (getElem?_linked_branch.mp hj)
    refine ⟨d', t, ?_, ?_, ?_, ?_⟩
    · rw [rank_linked]
      exact getElem?_linked_branch.mpr hi
    · rw [linked, List.length_map]
      exact ht
    · rw [offset_linked, offset_linked, hb]
    · rw [offset_linked, offset_linked, rank_linked, rank_linked, ha]

end Code

end Lss
