import Lss.Proofs.LoopCode
import Lss.Proofs.Refolded
import Lss.Proofs.Structured

/-!
# Loops over collections read back

Code in which loops over collections are told apart is read back as statements that spell out just
these loops. An element is read as an access to its collection, which is the expression that the
head computes, with the parentheses that it has there.
-/
namespace Lss

def SlotNames.placeholder (n : Nat) : String := "$" ++ toString n

def SlotNames.Hidden (counts : Nat → Prop) (x : String) : Prop :=
  ∃ n, counts n ∧ x = SlotNames.placeholder n

namespace SlotNames

theorem placeholder_injective : Function.Injective placeholder := append_toString_injective "$"

theorem head_placeholder (n : Nat) : (placeholder n).toList.head? = some '$' := by
  rw [placeholder, String.toList_append]
  rfl

theorem head_hidden {counts : Nat → Prop} (x : String) (h : Hidden counts x) :
    x.toList.head? = some '$' := by
  obtain ⟨n, -, rfl⟩ := h
  exact head_placeholder n

/-- A slot that is not one of a loop has no hidden name. -/
theorem guarded_token {counts : Nat → Prop} {loops : List Loop} {names : SlotNames} {n : Nat}
    (h : ¬ counts n) : Expr.Guarded (Hidden counts) loops (.variable (names.token n)) := by
  unfold token
  split
  · exact .word (Expr.placeholder?_of_kind nofun)
  · split
    · refine .word (Expr.placeholder?_of_text ?_)
      rw [Token.identifier, Token.synthetic, String.toList_append]
      exact fun h => absurd (Option.some.inj h) (by decide)
    · refine .name fun x hx => ?_
      obtain rfl := Expr.eq_of_placeholder?_variable hx
      rintro ⟨m, hm, heq⟩
      exact h (placeholder_injective heq ▸ hm)

end SlotNames

namespace Library

open Stacked

variable {l : Library} {names : SlotNames} {stack rest : OperandStack} {x y : Code} {e : Expr}
  {es : List Expr} {i : UInt16}

theorem run_pop (place : Nat) (e : Expr) (stack : OperandStack) :
    (pop place).run.run (.expr e :: stack) = (.ok e.whole, stack) := by
  show (valueOf place (.expr e), stack) = _
  rw [valueOf_expr]

theorem run_apply (f : Expr → Expr) (place : Nat) (e : Expr) (stack : OperandStack) :
    (apply f place).run.run (.expr e :: stack) = (.ok (), .expr (f e.whole) :: stack) := by
  unfold Stacked.apply
  rw [run_bind, run_pop]
  rfl

theorem run_applyTwo (f : Expr → Expr → Expr) (place : Nat) (left right : Expr)
    (stack : OperandStack) : (applyTwo f place).run.run (.expr right :: .expr left :: stack) =
      (.ok (), .expr (f left.whole right.whole) :: stack) := by
  unfold applyTwo
  rw [run_bind, run_pop]
  dsimp only
  rw [run_bind, run_pop]
  rfl

theorem slot_local (h : i.toNat < 0x8000) :
    l.slot names (.ofLocal i) = pure (.variable (names.token i.toNat)) := by
  rw [Library.slot, Slot.isGlobal_ofLocal h, if_neg Bool.false_ne_true, Slot.index_ofLocal h]

theorem shows_local (h : i.toNat < 0x8000) :
    l.Shows names [.getVariable (.ofLocal i)] [.variable (names.token i.toNat)] := by
  refine fun stack => .one fun place => ?_
  simp only [step, slot_local h]
  rfl

theorem shows_integer (v : Int8) : l.Shows names [.pushInt8 v] [.literal (.integer v.toInt)] :=
  fun _ => .one fun _ => rfl

theorem runs_binary (op : BinaryOp) (left right : Expr) (stack : OperandStack) :
    l.Runs names [.binary op] (.expr right :: .expr left :: stack)
      (.expr (left.whole.ofBinary (.binary op) right.whole) :: stack) := by
  refine .one fun place => ?_
  simp only [step]
  rw [run_bind, run_applyTwo]
  rfl

/-- An operator between two values, each computed in its turn. -/
theorem Shows.binary {left right : Expr} (hx : l.Shows names x [left])
    (hy : l.Shows names y [right]) (op : BinaryOp) :
    l.Shows names (x ++ y ++ [Instruction.binary op])
      [left.whole.ofBinary (.binary op) right.whole] :=
  fun stack => ((hx stack).append (hy _)).append (runs_binary op left right stack)

theorem Shows.length (hx : l.Shows names x [e]) :
    l.Shows names (x ++ [Instruction.property .length])
      [e.whole.ofAccess (.access .member) (.variable (.of (.property .length)))] := by
  refine fun stack => (hx stack).append (.one fun place => ?_)
  simp only [step]
  show (Stacked.apply _ place >>= _).run.run (.expr e :: stack) = _
  rw [run_bind, run_apply]
  rfl

/-- An access to what is computed on top of other values, with a local. -/
theorem Shows.element (hx : l.Shows names x es) (hy : l.Shows names y [e]) (h : i.toNat < 0x8000) :
    l.Shows names (x ++ (y ++ [Instruction.getVariable (.ofLocal i), .getElement]))
      (.index e.whole.receiver (.variable (names.token i.toNat)) .synthetic :: es) := by
  refine fun stack => (hx stack).append ((hy _).append ?_)
  refine ((shows_local h _ : l.Runs names _ _ _)).append (y := [.getElement]) (.one fun place => ?_)
  simp only [step]
  show (applyTwo _ place >>= _).run.run (.expr _ :: .expr e :: stack.topped es) = _
  rw [run_bind, run_applyTwo]
  rfl

/-- A local is set to a value as it stands on the stack. -/
theorem does_setLocal (h : i.toNat < 0x8000) (e : Expr) :
    Does (· = e) (step l names (.setVariable (.ofLocal i))) 1 0
      (Completes (· = .assign (.variable (names.token i.toNat)) e.whole)) := by
  intro es hes
  obtain ⟨e', rfl⟩ := List.length_eq_one_iff.mp hes.1
  obtain rfl := List.forall_mem_singleton.mp hes.2
  refine ⟨some _, [], ⟨_, rfl, rfl⟩, ⟨rfl, by simp⟩, fun place stack => ?_⟩
  simp only [step]
  show (pop place >>= _).run.run (.expr e' :: stack) = _
  rw [run_bind, run_pop, slot_local h]
  rfl

theorem Shows.unique {es' : List Expr} (h : l.Shows names x es) (h' : l.Shows names x es') :
    es = es' := by
  have heq := (h []).unique (h' [])
  simp only [OperandStack.topped, List.append_nil] at heq
  exact List.map_injective_iff.mpr (fun _ _ => StackValue.expr.inj) heq

/-- A loop in code and what is read for it: how its slots are named, and its collection as it stands
in front of the index of an element. -/
structure ShowsLoop (l : Library) (names : SlotNames) (k : Code.Loop) (m : Loop) : Prop where
  small : k.index.toNat < 0x8000 ∧ k.last.toNat < 0x8000
  index : names.token k.index.toNat = .identifier m.index
  last : names.token k.last.toNat = .identifier m.last
  items : ∃ e, l.Shows names k.items [e] ∧ m.items = e.whole.receiver

end Library

section

open Stacked Library Body

variable {c : Container} {b : Body} {code x : Code} {counts : Nat → Prop} {locals n : Nat}
  {loops : List Code.Loop} {shown : List Lss.Loop} {taken : List Nat} {a : List Flow}

/-- Hidden locals stay guarded where they are read back. -/
theorem Code.Guarded.builds {names : SlotNames}
    (hc : ∀ text, c.Knows text → text.toList.head? ≠ some '$')
    (h : Code.Guarded counts loops n x)
    (hloops : ∀ k ∈ loops, ∃ m ∈ shown, (ofContainer c).ShowsLoop names k m)
    (hx : ∀ i ∈ x, i.Resolves c locals) :
    (ofContainer c).Builds names (Expr.Guarded (SlotNames.Hidden counts) shown) n x := by
  have hG := @Expr.Guarded.hereditary (SlotNames.Hidden counts) shown c hc
  induction h with
  | nil => exact .nil
  | apply _ hi hs ih =>
    obtain ⟨hx, hlast⟩ := List.forall_mem_append.mp hx
    refine (ih hx).step (does_step_operator hG hi (List.forall_mem_singleton.mp hlast) ?_ _)
    rintro s rfl hlocal
    exact SlotNames.guarded_token (hs s (.inl rfl) hlocal)
  | dup _ ih => exact (ih (List.forall_mem_append.mp hx).1).step (does_step_dup _ names _)
  | construct _ _ ih iha =>
    simp only [List.forall_mem_append, List.forall_mem_cons] at hx
    obtain ⟨⟨⟨hx, hnew, -⟩, hargs⟩, -⟩ := hx
    exact .construct hG (ih hx) (iha hargs) hnew
  | @element _ _ k _ hk _ ih ihitems =>
    simp only [Code.Loop.element, List.forall_mem_append] at hx
    obtain ⟨es, hes, hshows⟩ := ih hx.1
    obtain ⟨es', hes', hitems⟩ := ihitems hx.2.1
    obtain ⟨m, hm, hshown⟩ := hloops k hk
    obtain ⟨e, he, hreceiver⟩ := hshown.items
    -- the collection is the expression of the head
    obtain rfl := he.unique hitems
    have hguarded : Expr.Guarded (SlotNames.Hidden counts) shown m.items := by
      rw [hreceiver]
      exact (hG.whole (List.forall_mem_singleton.mp hes'.2)).groupedIf _
    refine ⟨_, ⟨?_, List.forall_mem_cons.mpr ⟨?_, hes.2⟩⟩, hshows.element he hshown.small.1⟩
    · rw [List.length_cons, hes.1]
    · rw [hshown.index, ← hreceiver]
      exact @Expr.Guarded.read _ _ m .synthetic hm hguarded

/-- A local that is set to a value, as the only statement. -/
theorem recovers_setLocal {P : Instruction → Prop} (hl : b.Laid code)
    (hn : b.Notes code code.length) {e : Expr} {i : UInt16} (hx : Pushes P 1 x)
    (hshows : b.library.Shows b.names x [e]) (hi : i.toNat < 0x8000) :
    b.Recovers code (· = [.assign (.variable (b.names.token i.toNat)) e.whole])
      (x ++ [Instruction.setVariable (.ofLocal i)]) := by
  intro pre post stop hcode hstop hclear
  refine hx.reads hl hn ⟨[e], ⟨rfl, by simp⟩, hshows⟩ (by simp) (does_setLocal hi e) hcode hstop
    hclear ?_
  rintro _ rfl
  rfl

/-- The three statements of a loop over a collection. -/
theorem Code.Loop.recovers {k : Code.Loop} {m : Lss.Loop} {body : Code} {out back : Int16}
    {sk : List Skeleton} {Q : List Stmt → Prop} (hl : b.Laid code)
    (hn : b.Notes code code.length) (hk : b.library.ShowsLoop b.names k m)
    (hitems : Pushes (fun _ => True) 1 k.items) (hshape : Shaped (fun _ => True) sk body)
    (hbody : b.Recovers code Q body) (hout : out.toInt = Code.size (body ++ k.advance) + 3)
    (hback : back.toInt = -(Code.size k.test + Code.size (body ++ k.advance) + 6)) :
    b.Recovers code (fun ss => ∃ body, Q body ∧ ss = [m.start, m.bound, m.rounds body])
      (k.start ++ k.bound ++ k.rounds body out back) := by
  obtain ⟨e, he, hreceiver⟩ := hk.items
  have hindex : b.library.Shows b.names _ _ := shows_local hk.small.1
  have hlast : b.library.Shows b.names _ _ := shows_local hk.small.2
  rw [hk.index] at hindex
  rw [hk.last] at hlast
  have hstart : b.Recovers code (· = [m.start]) k.start := by
    have hzero : b.library.Shows b.names [.pushZero] [.literal (.integer 0)] :=
      fun _ => .one fun _ => rfl
    have hset := recovers_setLocal (P := fun _ => True) hl hn (.one rfl rfl trivial) hzero
      hk.small.1
    rw [hk.index] at hset
    exact hset
  have hbound : b.Recovers code (· = [m.bound]) k.bound := by
    have hless := he.length.binary (shows_integer 1) .sub
    rw [List.append_assoc, List.append_assoc] at hless
    have hset := recovers_setLocal hl hn (Code.Loop.pushes_less hitems fun _ _ => trivial) hless
      hk.small.2
    have hm : m.bound = .assign (.name m.last) (.operation (.operation e.whole.receiver
        (.access .member) (.variable (.of (.property .length)))) (.binary .sub)
          (.literal (.integer 1))) := by
      rw [← hreceiver]
      rfl
    rw [hm]
    rw [hk.last] at hset
    exact hset
  have hadvance : b.Recovers code (· = [m.advance]) k.advance := by
    have hset := recovers_setLocal (P := fun _ => True) hl hn
      (Code.Loop.pushes_next fun _ _ => trivial) (hindex.binary (shows_integer 1) .add) hk.small.1
    rw [hk.index] at hset
    exact hset
  have htest : b.library.Builds b.names (· = m.test) 1 k.test :=
    ⟨_, ⟨rfl, List.forall_mem_singleton.mpr rfl⟩, hlast.binary hindex .greaterEqual⟩
  have hinside := hbody.append hadvance (Code.Loop.shaped_advance (P := fun _ => True)
    fun _ _ => trivial) (T := fun ss => ∃ body, Q body ∧ ss = body ++ [m.advance])
      fun ss ts hss hts => ⟨ss, hss, by rw [hts]⟩
  have hrounds : b.Recovers code (fun ss => ∃ body, Q body ∧ ss = [m.rounds body])
      (k.rounds body out back) := by
    refine recovers_while hl hn (Code.Loop.pushes_test (P := fun _ => True) fun _ _ => trivial)
      htest hinside hout hback ?_
    rintro _ _ rfl ⟨ss, hss, rfl⟩
    exact ⟨ss, hss, rfl⟩
  have hshaped : Shaped (fun _ => True) _ (k.rounds body out back) :=
    .while_ (Code.Loop.pushes_test fun _ _ => trivial)
      (hshape.append (Code.Loop.shaped_advance fun _ _ => trivial)) hout hback
  have hhead := hstart.append hbound (Shaped.store (P := fun _ => True)
    (i := .setVariable (.ofLocal k.last)) (Code.Loop.pushes_less hitems fun _ _ => trivial) rfl
      trivial) (T := (· = [m.start, m.bound])) (by rintro _ _ rfl rfl; rfl)
  refine hhead.append hrounds hshaped ?_
  rintro _ _ rfl ⟨ss, hss, rfl⟩
  exact ⟨ss, hss, rfl⟩

/-- Code with loops over collections is read as statements that spell these out. -/
theorem Code.Unfolds.recovers (hl : b.Laid code) (hn : b.Notes code code.length)
    (hlib : b.library = .ofContainer c)
    (hc : ∀ text, c.Knows text → text.toList.head? ≠ some '$')
    (hnames : ∀ n, counts n → b.names.token n = .identifier (SlotNames.placeholder n))
    (h : Code.Unfolds counts loops taken a x)
    (hloops : ∀ k ∈ loops, ∃ m ∈ shown, (ofContainer c).ShowsLoop b.names k m)
    (hx : ∀ i ∈ x, i.Resolves c locals) :
    b.Recovers code
      (Stmt.Unfolds (SlotNames.Hidden counts) shown (taken.map SlotNames.placeholder) a) x := by
  have hG {shown : List Lss.Loop} := @Expr.Guarded.hereditary (SlotNames.Hidden counts) shown c hc
  have hvalue {loops : List Code.Loop} {shown : List Lss.Loop} {n : Nat} {x : Code}
      (h : Code.Guarded counts loops n x)
      (hloops : ∀ k ∈ loops, ∃ m ∈ shown, (ofContainer c).ShowsLoop b.names k m)
      (hx : ∀ i ∈ x, i.Resolves c locals) :
      b.library.Builds b.names (Expr.Guarded (SlotNames.Hidden counts) shown) n x := by
    rw [hlib]
    exact h.builds hc hloops hx
  induction h generalizing shown with
  | nil => exact recovers_nil .nil
  | append _ hy ihx ihy =>
    obtain ⟨hx, hrest⟩ := List.forall_mem_append.mp hx
    exact (ihx hloops hx).append (ihy hloops hrest) (hy.shaped hrest) fun _ _ => .append
  | mark line => exact fun _ _ _ hcode hstop hclear => reads_mark hl hn hcode hstop hclear .nil
  | @store _ _ _ i hv hi hs =>
    intro _ _ _ hcode hstop hclear
    obtain ⟨hx, hlast⟩ := List.forall_mem_append.mp hx
    have hplace : ∀ s, i = .setVariable s → s.isGlobal = false →
        Expr.Guarded (SlotNames.Hidden counts) shown
          (.variable (b.names.token s.index.toNat)) := by
      rintro s rfl hlocal
      exact SlotNames.guarded_token (hs s (.inr rfl) hlocal)
    refine (hv.pushes hx).reads hl hn (hvalue hv hloops hx) (Instruction.not_branch_of_isStore hi)
      (hlib ▸ does_step_store hG hi (List.forall_mem_singleton.mp hlast) hplace) hcode hstop hclear
      ?_
    rintro _ ⟨t, v, rfl, ht, hv, hat⟩
    exact .one (.assign ht hv hat)
  | drop hv =>
    intro _ _ _ hcode hstop hclear
    have hx := (List.forall_mem_append.mp hx).1
    refine (hv.pushes hx).reads hl hn (hvalue hv hloops hx) (by simp) (does_step_pop hG _ _)
      hcode hstop hclear ?_
    rintro _ ⟨e, rfl, he⟩
    exact .one (.expr he)
  | return_ hv =>
    intro _ _ _ hcode hstop hclear
    have hx := (List.forall_mem_append.mp hx).1
    refine (hv.pushes hx).reads hl hn (hvalue hv hloops hx) (by simp)
      (does_step_return hG _ _) hcode hstop hclear ?_
    rintro _ ⟨v, rfl, hv⟩
    exact .one (.ofReturn hv)
  | if_ ht hbody hskip ih =>
    obtain ⟨htest, hrest⟩ := List.forall_mem_append.mp hx
    have hin := (List.forall_mem_cons.mp hrest).2
    refine recovers_if hl hn (ht.pushes htest) (hvalue ht hloops htest) (hbody.shaped hin)
      (ih hloops hin) hskip ?_
    exact fun e body he hbody => .one (.if_ (hG.whole he) hbody.ofList)
  | ifElse ht hbody harm hskip hpast ih iharm =>
    simp only [List.forall_mem_append, List.forall_mem_cons] at hx
    obtain ⟨⟨htest, -, hin⟩, -, hother⟩ := hx
    refine recovers_ifElse hl hn (ht.pushes htest) (hvalue ht hloops htest) (hbody.shaped hin)
      (harm.shaped hother) (ih hloops hin) (iharm hloops hother) hskip hpast ?_ ?_
    · exact fun e body arm he hbody harm => .one
        (.ifElse (hG.whole he) hbody.ofList (.arm harm.elseArm))
    · intro hnil e body he hbody
      rw [hnil.eq_nil]
      exact .one (.if_ (hG.whole he) hbody.ofList)
  | while_ ht _ hout hback ih =>
    simp only [List.forall_mem_append, List.forall_mem_cons] at hx
    obtain ⟨⟨htest, -, hin⟩, -⟩ := hx
    refine recovers_while hl hn (ht.pushes htest) (hvalue ht hloops htest) (ih hloops hin) hout
      hback ?_
    exact fun e body he hbody => .one (.while_ (hG.whole he) hbody.ofList)
  | doWhile _ ht hback ih =>
    simp only [List.forall_mem_append] at hx
    obtain ⟨⟨hin, htest⟩, -⟩ := hx
    refine recovers_doWhile hl hn (ht.pushes htest) (hvalue ht hloops htest) (ih hloops hin) hback
      ?_
    exact fun body e hbody he => .one (.doWhile hbody.ofList (hG.whole he))
  | @loop _ _ k _ body _ _ hfresh hitems hbody hout hback ih =>
    simp only [Code.Loop.bound, Code.Loop.less, Code.Loop.rounds, List.forall_mem_append,
      List.forall_mem_cons] at hx
    obtain ⟨⟨-, ⟨hcollection, -⟩, -⟩, ⟨-, -, hin, -⟩, -⟩ := hx
    obtain ⟨es, ⟨hlen, hes⟩, hshows⟩ := hitems.builds hc hloops hcollection
    obtain ⟨e, rfl⟩ := List.length_eq_one_iff.mp hlen
    let m : Lss.Loop := ⟨SlotNames.placeholder k.index.toNat, SlotNames.placeholder k.last.toNat,
      e.whole.receiver⟩
    have hk : (ofContainer c).ShowsLoop b.names k m :=
      ⟨hfresh.small, hnames _ hfresh.index, hnames _ hfresh.last, e, hshows, rfl⟩
    have hinside : ∀ k' ∈ k :: _, ∃ m' ∈ m :: shown, (ofContainer c).ShowsLoop b.names k' m' :=
      List.forall_mem_cons.mpr ⟨⟨m, List.mem_cons_self, hk⟩, fun k' hk' =>
        (hloops k' hk').imp fun m' hm' => ⟨List.mem_cons_of_mem m hm'.1, hm'.2⟩⟩
    refine (Code.Loop.recovers hl hn (hlib ▸ hk) (hitems.pushes fun _ _ => trivial)
      (hbody.shaped fun _ _ => trivial) (ih hinside hin) hout hback).imp ?_
    rintro _ ⟨ss, hss, rfl⟩
    have hfree {n : Nat} {taken : List Nat} (h : n ∉ taken) :
        SlotNames.placeholder n ∉ taken.map SlotNames.placeholder :=
      fun hmem => h ((List.mem_map_of_injective SlotNames.placeholder_injective).mp hmem)
    refine .loop (l := m) ⟨⟨_, hfresh.index, rfl⟩, ⟨_, hfresh.last, rfl⟩, hfree hfresh.index_free,
      hfree hfresh.last_free⟩ ?_ hss .nil
    exact (hG.whole (List.forall_mem_singleton.mp hes)).groupedIf _

end

end Lss
