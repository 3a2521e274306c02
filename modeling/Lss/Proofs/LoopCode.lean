import Lss.Proofs.EmitsBody
import Lss.Proofs.Flows
import Lss.Proofs.Linking

/-!
# Code of loops over collections

Structured code in which loops over collections are told apart from other code. Each has a counter
and a bound of its own, which nothing else reads or sets, but that elements of its collection are
read with the counter, by the code that the collection has in the head.
-/
namespace Lss

def Instruction.Spares (counts : Nat → Prop) (i : Instruction) : Prop :=
  ∀ s, i = .getVariable s ∨ i = .setVariable s → s.isGlobal = false → ¬ counts s.index.toNat

theorem Instruction.Spares.linked {counts : Nat → Prop} {i : Instruction} (h : i.Spares counts)
    (place : String → UInt32) : (i.linked place).Spares counts := by
  cases i with
  | unresolvedCall f argc => rintro s (heq | heq) <;> cases heq
  | _ => exact h

namespace Code

/-- A loop over a collection: the slots of its counter and its bound, and the code of the
collection. -/
structure Loop where
  index : UInt16
  last : UInt16
  items : Code

namespace Loop

def start (l : Loop) : Code := [.pushZero, .setVariable (.ofLocal l.index)]

def less (l : Loop) : Code := l.items ++ [Instruction.property .length, .pushInt8 1, .binary .sub]

def bound (l : Loop) : Code := l.less ++ [Instruction.setVariable (.ofLocal l.last)]

def test (l : Loop) : Code :=
  [.getVariable (.ofLocal l.last), .getVariable (.ofLocal l.index), .binary .greaterEqual]

def next (l : Loop) : Code :=
  [.getVariable (.ofLocal l.index), .pushInt8 1, .binary .add]

def advance (l : Loop) : Code := l.next ++ [Instruction.setVariable (.ofLocal l.index)]

def rounds (l : Loop) (body : Code) (out back : Int16) : Code :=
  l.test ++ .branch .ifFalse out :: (body ++ l.advance) ++ [Instruction.branch .always back]

def element (l : Loop) : Code :=
  l.items ++ [Instruction.getVariable (.ofLocal l.index), .getElement]

def linked (place : String → UInt32) (l : Loop) : Loop :=
  { l with items := Code.linked place l.items }

structure Fresh (counts : Nat → Prop) (taken : List Nat) (l : Loop) : Prop where
  small : l.index.toNat < 0x8000 ∧ l.last.toNat < 0x8000
  index : counts l.index.toNat
  last : counts l.last.toNat
  index_free : l.index.toNat ∉ taken
  last_free : l.last.toNat ∉ taken

section

variable {l : Loop} {P : Instruction → Prop}

theorem pushes_less (hitems : Pushes P 1 l.items) (hP : ∀ i ∈ l.less, P i) :
    Pushes P 1 l.less := by
  simp only [less, List.forall_mem_append, List.forall_mem_cons] at hP
  obtain ⟨-, hlength, hone, hsub, -⟩ := hP
  have hmany : Pushes P 1 (l.items ++ [Instruction.property .length]) :=
    .apply (n := 0) (i := .property .length) hitems rfl hlength
  have hless := Pushes.apply (n := 0) (i := .binary .sub) (hmany.append (.one rfl rfl hone)) rfl
    hsub
  rwa [List.append_assoc, List.append_assoc] at hless

theorem pushes_next (hP : ∀ i ∈ l.next, P i) : Pushes P 1 l.next := by
  simp only [next, List.forall_mem_cons] at hP
  obtain ⟨hindex, hone, hadd, -⟩ := hP
  exact .apply (n := 0) (i := .binary .add) ((Pushes.one rfl rfl hindex).append (.one rfl rfl hone))
    rfl hadd

theorem pushes_test (hP : ∀ i ∈ l.test, P i) : Pushes P 1 l.test := by
  simp only [test, List.forall_mem_cons] at hP
  obtain ⟨hlast, hindex, hcompare, -⟩ := hP
  exact .apply (n := 0) (i := .binary .greaterEqual)
    ((Pushes.one rfl rfl hlast).append (.one rfl rfl hindex)) rfl hcompare

theorem shaped_advance (hP : ∀ i ∈ l.advance, P i) : Shaped P [.assign] l.advance := by
  obtain ⟨hnext, hset⟩ := List.forall_mem_append.mp hP
  exact .store (i := .setVariable (.ofLocal l.index)) (pushes_next hnext) rfl
    (List.forall_mem_singleton.mp hset)

end

end Loop

/-- Straight code for `n` values that reads counters of loops for nothing but elements of the loops
under way. -/
inductive Guarded (counts : Nat → Prop) (loops : List Loop) : Nat → Code → Prop
  | nil : Guarded counts loops 0 []
  | apply {n x} {i : Instruction} : Guarded counts loops (n + i.takes) x → i.isOperator →
      i.Spares counts →
      Guarded counts loops (n + 1) (x ++ [i])
  | dup {n x} : Guarded counts loops (n + 1) x →
      Guarded counts loops (n + 2) (x ++ [Instruction.dup])
  | construct {n x t args} {argc : UInt8} : Guarded counts loops n x →
      Guarded counts loops argc.toNat args →
      Guarded counts loops (n + 1) (x ++ [Instruction.createObject t, .dup] ++ args
        ++ [Instruction.lookupMethod t, .callIndirect argc, .pop])
  | element {n x l} : Guarded counts loops n x → l ∈ loops → Guarded counts loops 1 l.items →
      Guarded counts loops (n + 1) (x ++ l.element)

/-- Code of statements with a control flow. Loops around them are under way, and the slots of these
are taken. -/
inductive Unfolds (counts : Nat → Prop) : List Loop → List Nat → List Flow → Code → Prop
  | nil {loops taken} : Unfolds counts loops taken [] []
  | append {loops taken a b x y} : Unfolds counts loops taken a x → Unfolds counts loops taken b y →
      Unfolds counts loops taken (a ++ b) (x ++ y)
  | mark {loops taken} (line) : Unfolds counts loops taken [] [.lineNumber line]
  | store {loops taken x} {i : Instruction} : Guarded counts loops i.takes x → i.isStore →
      i.Spares counts →
      Unfolds counts loops taken [.assign] (x ++ [i])
  | drop {loops taken x} : Guarded counts loops 1 x →
      Unfolds counts loops taken [.expr] (x ++ [Instruction.pop])
  | return_ {loops taken x} : Guarded counts loops 1 x →
      Unfolds counts loops taken [.return_] (x ++ [Instruction.return_])
  | if_ {loops taken test a body} {skip : Int16} : Guarded counts loops 1 test →
      Unfolds counts loops taken a body → skip.toInt = Code.size body →
      Unfolds counts loops taken [.if_ a []] (test ++ .branch .ifFalse skip :: body)
  | ifElse {loops taken test a body b arm} {skip past : Int16} : Guarded counts loops 1 test →
      Unfolds counts loops taken a body → Unfolds counts loops taken b arm →
      skip.toInt = Code.size body + 3 → past.toInt = Code.size arm →
      Unfolds counts loops taken [.if_ a b]
        (test ++ .branch .ifFalse skip :: body ++ .branch .always past :: arm)
  | while_ {loops taken test a body} {out back : Int16} : Guarded counts loops 1 test →
      Unfolds counts loops taken a body → out.toInt = Code.size body + 3 →
      back.toInt = -(Code.size test + Code.size body + 6) →
      Unfolds counts loops taken [.while_ a]
        (test ++ .branch .ifFalse out :: body ++ [Instruction.branch .always back])
  | doWhile {loops taken a body test} {back : Int16} : Unfolds counts loops taken a body →
      Guarded counts loops 1 test → back.toInt = -(Code.size body + Code.size test + 3) →
      Unfolds counts loops taken [.doWhile a] (body ++ test ++ [Instruction.branch .ifTrue back])
  | loop {loops taken l a body} {out back : Int16} : l.Fresh counts taken →
      Guarded counts loops 1 l.items →
      Unfolds counts (l :: loops) (l.index.toNat :: l.last.toNat :: taken) a body →
      out.toInt = Code.size (body ++ l.advance) + 3 →
      back.toInt = -(Code.size l.test + Code.size (body ++ l.advance) + 6) →
      Unfolds counts loops taken [.foreach a] (l.start ++ l.bound ++ l.rounds body out back)

section

variable {counts : Nat → Prop} {loops loops' : List Loop} {taken : List Nat} {n m : Nat}
  {x y : Code} {P : Instruction → Prop}

namespace Guarded

theorem append (hx : Guarded counts loops n x) (hy : Guarded counts loops m y) :
    Guarded counts loops (n + m) (x ++ y) := by
  induction hy with
  | nil => simpa using hx
  | apply _ hi hs ih =>
    rw [← List.append_assoc, ← Nat.add_assoc]
    rw [← Nat.add_assoc] at ih
    exact ih.apply hi hs
  | dup _ ih =>
    rw [← List.append_assoc]
    exact ih.dup
  | @construct _ _ type _ _ _ hargs ih _ =>
    have h : Guarded counts loops _ _ := ih.construct (t := type) hargs
    simpa [List.append_assoc, Nat.add_assoc] using h
  | element _ hl hitems ih _ =>
    rw [← List.append_assoc]
    exact ih.element hl hitems

theorem mono (h : Guarded counts loops n x) (hsub : loops ⊆ loops') :
    Guarded counts loops' n x := by
  induction h with
  | nil => exact .nil
  | apply _ hi hs ih => exact ih.apply hi hs
  | dup _ ih => exact ih.dup
  | construct _ _ ih iha => exact ih.construct iha
  | element _ hl _ ih ihitems => exact ih.element (hsub hl) ihitems

theorem pushes (h : Guarded counts loops n x) (hP : ∀ i ∈ x, P i) : Pushes P n x := by
  induction h with
  | nil => exact .nil
  | apply _ hi _ ih =>
    obtain ⟨hx, hlast⟩ := List.forall_mem_append.mp hP
    exact (ih hx).apply hi (List.forall_mem_singleton.mp hlast)
  | dup _ ih => exact (ih (List.forall_mem_append.mp hP).1).dup
  | construct _ _ ih iha =>
    simp only [List.forall_mem_append, List.forall_mem_cons] at hP
    obtain ⟨⟨⟨hx, hnew, -⟩, hargs⟩, hmethod, -⟩ := hP
    exact (ih hx).construct (iha hargs) hnew hmethod
  | element _ _ _ ih ihitems =>
    obtain ⟨hx, helement⟩ := List.forall_mem_append.mp hP
    obtain ⟨hitems, hread⟩ := List.forall_mem_append.mp helement
    obtain ⟨hindex, haccess⟩ := List.forall_mem_cons.mp hread
    have hcounter : Pushes P 1 [.getVariable (.ofLocal _)] := .one rfl rfl hindex
    have hboth := (ihitems hitems).append hcounter
    have helement := Pushes.apply (n := 0) (i := .getElement) hboth rfl
      (List.forall_mem_singleton.mp haccess)
    rw [List.append_assoc] at helement
    exact (ih hx).append helement

theorem linked (place : String → UInt32) (h : Guarded counts loops n x) :
    Guarded counts (loops.map (Loop.linked place)) n (Code.linked place x) := by
  induction h with
  | nil => exact .nil
  | @apply _ _ i _ hi hs ih =>
    rw [Code.linked_append]
    rw [← Instruction.takes_linked place i] at ih
    exact ih.apply (by rwa [Instruction.isOperator_linked]) (hs.linked place)
  | dup _ ih =>
    rw [Code.linked_append]
    exact ih.dup
  | construct _ _ ih iha =>
    simp only [Code.linked_append]
    exact ih.construct iha
  | @element _ _ l _ hl _ ih ihitems =>
    have hread : Code.linked place l.element = (l.linked place).element := by
      rw [Loop.element, Code.linked_append]
      rfl
    rw [Code.linked_append, hread]
    exact ih.element (List.mem_map_of_mem hl) ihitems

end Guarded

namespace Unfolds

variable {a : List Flow}

theorem shaped (h : Unfolds counts loops taken a x) (hP : ∀ i ∈ x, P i) :
    Shaped P (Flow.skeletons a) x := by
  induction h with
  | nil => exact .nil
  | append _ _ ihx ihy =>
    obtain ⟨hx, hy⟩ := List.forall_mem_append.mp hP
    rw [Flow.skeletons_append]
    exact (ihx hx).append (ihy hy)
  | mark line => exact .mark line
  | store hv hi _ =>
    obtain ⟨hx, hlast⟩ := List.forall_mem_append.mp hP
    exact .store (hv.pushes hx) hi (List.forall_mem_singleton.mp hlast)
  | drop hv => exact .drop (hv.pushes (List.forall_mem_append.mp hP).1)
  | return_ hv => exact .return_ (hv.pushes (List.forall_mem_append.mp hP).1)
  | if_ ht _ hskip ih =>
    obtain ⟨htest, hrest⟩ := List.forall_mem_append.mp hP
    exact .if_ (ht.pushes htest) (ih (List.forall_mem_cons.mp hrest).2) hskip
  | ifElse ht _ _ hskip hpast ih ihb =>
    simp only [List.forall_mem_append, List.forall_mem_cons] at hP
    obtain ⟨⟨htest, -, hbody⟩, -, harm⟩ := hP
    exact .ifElse (ht.pushes htest) (ih hbody) (ihb harm) hskip hpast
  | while_ ht _ hout hback ih =>
    simp only [List.forall_mem_append, List.forall_mem_cons] at hP
    exact .while_ (ht.pushes hP.1.1) (ih hP.1.2.2) hout hback
  | doWhile _ ht hback ih =>
    simp only [List.forall_mem_append] at hP
    exact .doWhile (ih hP.1.1) (ht.pushes hP.1.2) hback
  | @loop _ _ l _ _ _ _ _ hitems _ hout hback ih =>
    simp only [Loop.start, Loop.bound, Loop.rounds, List.forall_mem_append, List.forall_mem_cons]
      at hP
    obtain ⟨⟨⟨hzero, hseti, -⟩, hless, hsetm, -⟩, ⟨htest, -, hbody, hadvance⟩, -⟩ := hP
    have hstart : Shaped P [.assign] l.start :=
      .store (i := .setVariable (.ofLocal l.index)) (.one rfl rfl hzero) rfl hseti
    have hbound : Shaped P [.assign] l.bound := .store (i := .setVariable (.ofLocal l.last))
      (Loop.pushes_less (hitems.pushes (List.forall_mem_append.mp hless).1) hless) rfl hsetm
    exact (hstart.append hbound).append
      (.while_ (Loop.pushes_test htest) ((ih hbody).append (Loop.shaped_advance hadvance)) hout
        hback)

theorem linked (place : String → UInt32) (h : Unfolds counts loops taken a x) :
    Unfolds counts (loops.map (Loop.linked place)) taken a (Code.linked place x) := by
  induction h with
  | nil => exact .nil
  | append _ _ ihx ihy =>
    rw [Code.linked_append]
    exact ihx.append ihy
  | mark line => exact .mark line
  | @store _ _ _ i hv hi hs =>
    rw [Code.linked_append]
    have hv := hv.linked place
    rw [← Instruction.takes_linked place i] at hv
    exact .store hv (by rwa [Instruction.isStore_linked]) (hs.linked place)
  | drop hv =>
    rw [Code.linked_append]
    exact .drop (hv.linked place)
  | return_ hv =>
    rw [Code.linked_append]
    exact .return_ (hv.linked place)
  | @if_ _ _ _ _ body _ ht _ hskip ih =>
    rw [← Code.size_linked place body] at hskip
    rw [Code.linked_append]
    exact .if_ (ht.linked place) ih hskip
  | @ifElse _ _ _ _ body _ arm _ _ ht _ _ hskip hpast ih ihb =>
    rw [← Code.size_linked place body] at hskip
    rw [← Code.size_linked place arm] at hpast
    simp only [Code.linked_append]
    exact .ifElse (ht.linked place) ih ihb hskip hpast
  | @while_ _ _ test _ body _ _ ht _ hout hback ih =>
    rw [← Code.size_linked place body] at hout hback
    rw [← Code.size_linked place test] at hback
    simp only [Code.linked_append]
    exact .while_ (ht.linked place) ih hout hback
  | @doWhile _ _ _ body test _ _ ht hback ih =>
    rw [← Code.size_linked place body, ← Code.size_linked place test] at hback
    simp only [Code.linked_append]
    exact .doWhile ih (ht.linked place) hback
  | @loop _ _ l _ body out back hfresh hitems _ hout hback ih =>
    have hadvance : (l.linked place).advance = Code.linked place l.advance := rfl
    have htest : (l.linked place).test = Code.linked place l.test := rfl
    have hwhole : Code.linked place (l.start ++ l.bound ++ l.rounds body out back) =
        (l.linked place).start ++ (l.linked place).bound ++
          (l.linked place).rounds (Code.linked place body) out back := by
      simp only [Loop.bound, Loop.less, Loop.rounds, Code.linked_append, Code.linked_cons,
        Code.linked_nil]
      rfl
    rw [← Code.size_linked place (body ++ l.advance), Code.linked_append, ← hadvance]
      at hout hback
    rw [← Code.size_linked place l.test, ← htest] at hback
    rw [hwhole]
    exact .loop ⟨hfresh.small, hfresh.index, hfresh.last, hfresh.index_free, hfresh.last_free⟩
      (hitems.linked place) ih hout hback

end Unfolds

end

end Code

end Lss
