import Lss.Container.Basic
import Lss.Proofs.Skeleton

/-!
# The shape of compiled code

Straight code is built by operators that take values and leave one; structured code is built from
straight code by the branches of `if`, `while` and `do`. Both come with a predicate that their
instructions satisfy, so that one derivation carries the shape and whatever is known of operands.
-/
namespace Lss

inductive Reference where
  | string (s : StringId)
  | symbol (s : SymbolId)
deriving DecidableEq, Repr

namespace Instruction

def takes : Instruction → Nat
  | .setVariable _ | .setThisMember _ | .setGameVariable _ _ => 1
  | .getMember _ | .getDynamicGameVariable _ | .unary _ | .property _ => 1
  | .setMember _ | .getDynamicMember | .getElement | .binary _ => 2
  | .setDynamicMember | .setElement => 3
  | .createArray count => count.toNat
  | .array op => op.arity + 1
  | .callFunction _ argc | .callGameFunction _ _ argc | .callThisMethod _ argc
  | .unresolvedCall _ argc => argc.toNat
  | .callDynamicGameFunction _ argc => argc.toNat + 1
  | .callMethod _ argc | .callIndirect argc => argc.toNat + 2
  | .callDynamicMethod argc => argc.toNat + 3
  | .branch .ifFalse _ | .branch .ifTrue _ | .return_ | .pop | .dup => 1
  | _ => 0

def gives : Instruction → Nat
  | .setVariable _ | .setMember _ | .setThisMember _ | .setDynamicMember | .setGameVariable _ _
  | .setElement | .branch _ _ | .return_ | .pop | .allocateLocals _ | .checkArgumentCount _
  | .lineNumber _ => 0
  | .dup => 2
  | _ => 1

def isStore : Instruction → Bool
  | .setVariable _ | .setMember _ | .setThisMember _ | .setDynamicMember | .setGameVariable _ _
  | .setElement => true
  | _ => false

/-- Instructions that compute one value from those they take. Looking up a method and calling it
are steps of a construction, which is a whole of its own. -/
def isOperator : Instruction → Bool
  | .lookupMethod _ | .callIndirect _ => false
  | i => i.gives == 1

def references : Instruction → List Reference
  | .pushString s => [.string s]
  | .getMember m | .setMember m | .getThisMember m | .setThisMember m | .createObject m
  | .lookupMethod m | .getDynamicGameVariable m | .callDynamicGameFunction m _ | .callMethod m _
  | .callThisMethod m _ => [.symbol m]
  | .getGameVariable s n | .setGameVariable s n | .callGameFunction s n _ =>
    [.symbol s, .symbol n]
  | _ => []

def form : Instruction → Instruction
  | .pushString _ => .pushString ⟨0⟩
  | .getMember _ => .getMember ⟨0⟩
  | .setMember _ => .setMember ⟨0⟩
  | .getThisMember _ => .getThisMember ⟨0⟩
  | .setThisMember _ => .setThisMember ⟨0⟩
  | .createObject _ => .createObject ⟨0⟩
  | .lookupMethod _ => .lookupMethod ⟨0⟩
  | .getDynamicGameVariable _ => .getDynamicGameVariable ⟨0⟩
  | .callDynamicGameFunction _ argc => .callDynamicGameFunction ⟨0⟩ argc
  | .callMethod _ argc => .callMethod ⟨0⟩ argc
  | .callThisMethod _ argc => .callThisMethod ⟨0⟩ argc
  | .getGameVariable _ _ => .getGameVariable ⟨0⟩ ⟨0⟩
  | .setGameVariable _ _ => .setGameVariable ⟨0⟩ ⟨0⟩
  | .callGameFunction _ _ argc => .callGameFunction ⟨0⟩ ⟨0⟩ argc
  | i => i

/-- Instructions whose place the shape of code fixes, and that refer to nothing. -/
def isFrame : Instruction → Bool
  | .dup | .pop | .callIndirect _ | .branch _ _ | .return_ | .lineNumber _ => true
  | _ => false

def isActive (i : Instruction) : Bool := !i.isFrame && !i.isPrologue

theorem isActive_of_isOperator {i : Instruction} (h : i.isOperator) : i.isActive := by
  cases i <;> first | rfl | cases h

theorem isActive_of_isStore {i : Instruction} (h : i.isStore) : i.isActive := by
  cases i <;> first | rfl | cases h

theorem gives_of_isOperator {i : Instruction} (h : i.isOperator) : i.gives = 1 := by
  cases i <;> first | rfl | cases h

theorem gives_of_isStore {i : Instruction} (h : i.isStore) : i.gives = 0 := by
  cases i <;> first | rfl | cases h

theorem not_branch_of_isOperator {i : Instruction} (h : i.isOperator) (kind : BranchKind)
    (d : Int16) : i ≠ .branch kind d := by
  rintro rfl
  cases h

theorem not_branch_of_isStore {i : Instruction} (h : i.isStore) (kind : BranchKind) (d : Int16) :
    i ≠ .branch kind d := by
  rintro rfl
  cases h

@[simp] theorem size_branch (kind : BranchKind) (d : Int16) :
    (Instruction.branch kind d).size = 3 := rfl

@[simp] theorem moves_dup : dup.takes = 1 ∧ dup.gives = 2 := ⟨rfl, rfl⟩

@[simp] theorem moves_pop : pop.takes = 1 ∧ pop.gives = 0 := ⟨rfl, rfl⟩

@[simp] theorem moves_return : return_.takes = 1 ∧ return_.gives = 0 := ⟨rfl, rfl⟩

@[simp] theorem moves_lineNumber (line : UInt16) :
    (lineNumber line).takes = 0 ∧ (lineNumber line).gives = 0 := ⟨rfl, rfl⟩

@[simp] theorem moves_createObject (type : SymbolId) :
    (createObject type).takes = 0 ∧ (createObject type).gives = 1 := ⟨rfl, rfl⟩

@[simp] theorem moves_lookupMethod (method : SymbolId) :
    (lookupMethod method).takes = 0 ∧ (lookupMethod method).gives = 1 := ⟨rfl, rfl⟩

@[simp] theorem moves_callIndirect (argc : UInt8) :
    (callIndirect argc).takes = argc.toNat + 2 ∧ (callIndirect argc).gives = 1 := ⟨rfl, rfl⟩

@[simp] theorem gives_branch (kind : BranchKind) (d : Int16) : (branch kind d).gives = 0 := rfl

@[simp] theorem takes_branch (kind : BranchKind) (d : Int16) :
    (branch kind d).takes = if kind = .always then 0 else 1 := by
  cases kind <;> rfl

theorem size_pos (i : Instruction) : 0 < i.size := by
  unfold size
  omega

end Instruction

variable {P Q : Instruction → Prop}

/-- Straight code that leaves `n` values on the stack and looks at none below them. -/
inductive Pushes (P : Instruction → Prop) : Nat → Code → Prop
  | nil : Pushes P 0 []
  | apply {n code i} : Pushes P (n + i.takes) code → i.isOperator → P i →
      Pushes P (n + 1) (code ++ [i])
  | dup {n code} : Pushes P (n + 1) code → Pushes P (n + 2) (code ++ [Instruction.dup])
  | construct {n code type args} {argc : UInt8} : Pushes P n code → Pushes P argc.toNat args →
      P (.createObject type) → P (.lookupMethod type) →
      Pushes P (n + 1) (code ++ [Instruction.createObject type, .dup] ++ args
        ++ [Instruction.lookupMethod type, .callIndirect argc, .pop])

/-- Code of statements. A branch counts bytes from its own end, which is three bytes long. -/
inductive Shaped (P : Instruction → Prop) : List Skeleton → Code → Prop
  | nil : Shaped P [] []
  | append {a b x y} : Shaped P a x → Shaped P b y → Shaped P (a ++ b) (x ++ y)
  | mark (line) : Shaped P [] [.lineNumber line]
  | store {code i} : Pushes P i.takes code → i.isStore → P i → Shaped P [.assign] (code ++ [i])
  | drop {code} : Pushes P 1 code → Shaped P [.expr] (code ++ [Instruction.pop])
  | return_ {code} : Pushes P 1 code → Shaped P [.return_] (code ++ [Instruction.return_])
  | if_ {test a body} {skip : Int16} : Pushes P 1 test → Shaped P a body →
      skip.toInt = Code.size body →
      Shaped P [.if_ a []] (test ++ .branch .ifFalse skip :: body)
  | ifElse {test a body b arm} {skip past : Int16} : Pushes P 1 test → Shaped P a body →
      Shaped P b arm →
      skip.toInt = Code.size body + 3 → past.toInt = Code.size arm →
      Shaped P [.if_ a b] (test ++ .branch .ifFalse skip :: body ++ .branch .always past :: arm)
  | while_ {test a body} {out back : Int16} : Pushes P 1 test → Shaped P a body →
      out.toInt = Code.size body + 3 → back.toInt = -(Code.size test + Code.size body + 6) →
      Shaped P [.while_ a]
        (test ++ .branch .ifFalse out :: body ++ [Instruction.branch .always back])
  | doWhile {a body test} {back : Int16} : Shaped P a body → Pushes P 1 test →
      back.toInt = -(Code.size body + Code.size test + 3) →
      Shaped P [.doWhile a] (body ++ test ++ [Instruction.branch .ifTrue back])

/-- Statements that end in a `return`, so that control never leaves their code at its end. -/
def Closed (P : Instruction → Prop) (sk : List Skeleton) (code : Code) : Prop :=
  ∃ a x value, sk = a ++ [Skeleton.return_] ∧ code = x ++ (value ++ [Instruction.return_]) ∧
    Shaped P a x ∧ Pushes P 1 value

namespace Pushes

theorem one {i : Instruction} (h : i.isOperator) (ht : i.takes = 0) (hp : P i) :
    Pushes P 1 [i] := by
  have hn : Pushes P (0 + i.takes) [] := by
    rw [ht]
    exact .nil
  exact hn.apply h hp

theorem append {n m : Nat} {a b : Code} (ha : Pushes P n a) (hb : Pushes P m b) :
    Pushes P (n + m) (a ++ b) := by
  induction hb with
  | nil => simpa using ha
  | apply _ hop hp ih =>
    rw [← List.append_assoc, ← Nat.add_assoc]
    rw [← Nat.add_assoc] at ih
    exact ih.apply hop hp
  | dup _ ih =>
    rw [← List.append_assoc]
    exact ih.dup
  | construct _ hargs hc hl ih _ =>
    have := ih.construct hargs hc hl
    simpa [List.append_assoc, Nat.add_assoc] using this

theorem imp {n : Nat} {code : Code} (hpq : ∀ i, P i → Q i) (h : Pushes P n code) :
    Pushes Q n code := by
  induction h with
  | nil => exact .nil
  | apply _ hop hp ih => exact ih.apply hop (hpq _ hp)
  | dup _ ih => exact ih.dup
  | construct _ _ hc hl ih iha => exact ih.construct iha (hpq _ hc) (hpq _ hl)

theorem forall_mem (hact : ∀ i : Instruction, i.isActive → P i → Q i)
    (hframe : ∀ i : Instruction, i.isFrame → Q i) {n : Nat} {code : Code} (h : Pushes P n code) :
    ∀ i ∈ code, Q i := by
  induction h with
  | nil => simp
  | @apply _ _ i _ hop hp ih =>
    have hi := hact i (Instruction.isActive_of_isOperator hop) hp
    exact List.forall_mem_append.mpr ⟨ih, List.forall_mem_singleton.mpr hi⟩
  | dup _ ih =>
    exact List.forall_mem_append.mpr ⟨ih, List.forall_mem_singleton.mpr (hframe _ rfl)⟩
  | @construct _ _ type _ argc _ _ hc hl ih iha =>
    have hc := hact (.createObject type) rfl hc
    have hl := hact (.lookupMethod type) rfl hl
    have hcall := hframe (.callIndirect argc) rfl
    simp only [List.forall_mem_append, List.forall_mem_cons]
    refine ⟨⟨⟨ih, hc, hframe _ rfl, ?_⟩, iha⟩, hl, hcall, hframe _ rfl, ?_⟩ <;> simp

theorem not_branch {n : Nat} {code : Code} (h : Pushes P n code) (kind : BranchKind)
    (d : Int16) : .branch kind d ∉ code := by
  induction h with
  | nil => simp
  | apply _ hop _ ih =>
    have := Instruction.not_branch_of_isOperator hop kind d
    simp [ih, this.symm]
  | dup _ ih => simp [ih]
  | construct _ _ _ _ ih iha => simp [ih, iha]

end Pushes

namespace Shaped

theorem imp {sk : List Skeleton} {code : Code} (hpq : ∀ i, P i → Q i) (h : Shaped P sk code) :
    Shaped Q sk code := by
  induction h with
  | nil => exact .nil
  | append _ _ iha ihb => exact iha.append ihb
  | mark line => exact .mark line
  | store hv hs hp => exact .store (hv.imp hpq) hs (hpq _ hp)
  | drop hv => exact .drop (hv.imp hpq)
  | return_ hv => exact .return_ (hv.imp hpq)
  | if_ ht _ hd ih => exact .if_ (ht.imp hpq) ih hd
  | ifElse ht _ _ hd he iha ihb => exact .ifElse (ht.imp hpq) iha ihb hd he
  | while_ ht _ ho hb ih => exact .while_ (ht.imp hpq) ih ho hb
  | doWhile _ ht hb ih => exact .doWhile ih (ht.imp hpq) hb

/-- What follows for active instructions and holds of the others holds throughout. -/
theorem forall_mem (hact : ∀ i : Instruction, i.isActive → P i → Q i)
    (hframe : ∀ i : Instruction, i.isFrame → Q i) {sk : List Skeleton} {code : Code}
    (h : Shaped P sk code) : ∀ i ∈ code, Q i := by
  have hpushes {n : Nat} {code : Code} (hv : Pushes P n code) : ∀ i ∈ code, Q i :=
    hv.forall_mem hact hframe
  induction h with
  | nil => simp
  | append _ _ iha ihb => exact List.forall_mem_append.mpr ⟨iha, ihb⟩
  | mark line => exact List.forall_mem_singleton.mpr (hframe _ rfl)
  | @store _ i hv hs hp =>
    have hi := hact i (Instruction.isActive_of_isStore hs) hp
    exact List.forall_mem_append.mpr ⟨hpushes hv, List.forall_mem_singleton.mpr hi⟩
  | drop hv | return_ hv =>
    exact List.forall_mem_append.mpr ⟨hpushes hv, List.forall_mem_singleton.mpr (hframe _ rfl)⟩
  | if_ ht _ _ ih =>
    simp only [List.forall_mem_append, List.forall_mem_cons]
    exact ⟨hpushes ht, hframe _ rfl, ih⟩
  | ifElse ht _ _ _ _ iha ihb =>
    simp only [List.forall_mem_append, List.forall_mem_cons]
    exact ⟨⟨hpushes ht, hframe _ rfl, iha⟩, hframe _ rfl, ihb⟩
  | while_ ht _ _ _ ih =>
    simp only [List.forall_mem_append, List.forall_mem_cons]
    exact ⟨⟨hpushes ht, hframe _ rfl, ih⟩, hframe _ rfl, by simp⟩
  | doWhile _ ht _ ih =>
    simp only [List.forall_mem_append, List.forall_mem_cons]
    exact ⟨⟨ih, hpushes ht⟩, hframe _ rfl, by simp⟩

end Shaped

theorem Closed.imp {sk : List Skeleton} {code : Code} (hpq : ∀ i, P i → Q i)
    (h : Closed P sk code) : Closed Q sk code := by
  obtain ⟨a, x, value, hsk, hcode, hx, hv⟩ := h
  exact ⟨a, x, value, hsk, hcode, hx.imp hpq, hv.imp hpq⟩

theorem Closed.shaped {sk : List Skeleton} {code : Code} (h : Closed P sk code) :
    Shaped P sk code := by
  obtain ⟨a, x, value, rfl, rfl, hx, hv⟩ := h
  exact hx.append (.return_ hv)

end Lss
