import Lss.Proofs.Decompiled
import Lss.Proofs.StackRules

/-!
# How a stretch of code is read

The ways in which a stretch of code becomes statements: step by step, or as a loop or a condition
with stretches of its own. Every instruction of the stretch is read once, and in the order of the
code. Conditions are read with an empty stack below them, and loops start on one.
-/
namespace Lss

open Stacked

/-- The ways in which code is read on a stack: its statements, and the stack after. -/
inductive Library.Decodes (l : Library) (names : SlotNames) :
    Code → OperandStack → List Stmt → OperandStack → Prop
  | done {stack} : Decodes l names [] stack [] stack
  | step {i code stack r stack' ss above} : Moves i.rule (l.effect? names i).toList stack r stack' →
      Decodes l names code stack' ss above →
      Decodes l names (i :: code) stack (r.toList ++ ss) above
  | skip {d code stack ss above} : Decodes l names code stack ss above →
      Decodes l names (.branch .always d :: code) stack ss above
  | if_ {place d v c a body code ss above} : valueOf place v = .ok c →
      Decodes l names a [] body [] → Decodes l names code [] ss above →
      Decodes l names (.branch .ifFalse d :: (a ++ code)) [v]
        (.if_ (some c) (.ofList body) none .synthetic :: ss) above
  | ifElse {place d d' v c a body b arm code ss above} : valueOf place v = .ok c →
      Decodes l names a [] body [] → Decodes l names b [] arm [] →
      Decodes l names code [] ss above →
      Decodes l names (.branch .ifFalse d :: (a ++ .branch .always d' :: (b ++ code))) [v]
        (.if_ (some c) (.ofList body) (some (.if_ none (Body.elseArm arm) none .synthetic))
          .synthetic :: ss) above
  | while_ {place d d' v c test a body code ss above} : valueOf place v = .ok c →
      Decodes l names test [] [] [v] → Decodes l names a [] body [] →
      Decodes l names code [] ss above →
      Decodes l names (test ++ .branch .ifFalse d :: (a ++ .branch .always d' :: code)) []
        (.while_ c (.ofList body) :: ss) above
  | doWhile {place d v c a body code ss above} : valueOf place v = .ok c →
      Decodes l names a [] body [v] → Decodes l names code [] ss above →
      Decodes l names (a ++ .branch .ifTrue d :: code) [] (.doWhile (.ofList body) c :: ss) above

namespace Body

/-- The places where loops are noted to end hold branches that can close one. -/
def Closes (b : Body) : Prop :=
  ∀ head, ∀ j ∈ b.backEdges.getD head [], ∃ kind d,
    b.code[j]? = some (.branch kind d) ∧ kind ≠ .ifFalse

def stretch (b : Body) (i stop : Nat) : Code := (b.code.toList.drop i).take (stop - i)

variable {b : Body} {stack above : OperandStack} {acc ss : List Stmt} {i stop : Nat}

theorem stretch_nil (h : stop ≤ i) : b.stretch i stop = [] := by
  rw [stretch, Nat.sub_eq_zero_of_le h, List.take_zero]

theorem stretch_split {j : Nat} (hij : i ≤ j) (hj : j ≤ stop) :
    b.stretch i stop = b.stretch i j ++ b.stretch j stop := by
  have hlen : stop - i = (j - i) + (stop - j) := by omega
  rw [stretch, hlen, List.take_add, List.drop_drop, Nat.add_sub_cancel' hij]
  rfl

theorem stretch_cons {x : Instruction} (hx : b.code[i]? = some x) (h : i < stop) :
    b.stretch i stop = x :: b.stretch (i + 1) stop := by
  obtain ⟨hlt, rfl⟩ := Array.getElem?_eq_some_iff.mp hx
  have hlen : stop - i = (stop - (i + 1)) + 1 := by omega
  rw [stretch, List.drop_eq_getElem_cons hlt, hlen, List.take_succ_cons]
  rfl

theorem stretch_whole : b.stretch 0 b.code.size = b.code.toList := by
  rw [stretch, List.drop_zero, Nat.sub_zero]
  exact List.take_length

/-- A stretch with an instruction inside. -/
theorem stretch_around {j : Nat} {x : Instruction} (hx : b.code[j]? = some x) (hij : i ≤ j)
    (hj : j < stop) : b.stretch i stop = b.stretch i j ++ x :: b.stretch (j + 1) stop := by
  rw [stretch_split hij (Nat.le_of_lt hj), stretch_cons hx hj]

theorem loop_start {back : Nat}
    (h : (if stack.isEmpty then b.loopEnd? i stop else none) = some back) :
    stack = [] ∧ back ∈ b.backEdges.getD i [] := by
  split at h
  · next hempty => exact ⟨List.isEmpty_iff.mp hempty, List.mem_of_find?_eq_some h⟩
  · cases h

theorem code_of_loopExit? {back exit : Nat} (h : b.loopExit? i back = some exit) :
    ∃ d, b.code[exit]? = some (.branch .ifFalse d) := by
  have hleaves := List.find?_some h
  split at hleaves
  · next hcode => exact ⟨_, hcode⟩
  · cases hleaves

theorem condition_eq_ok {c : Expr} (h : condition i stack = .ok c) :
    ∃ v, stack = [v] ∧ valueOf i v = .ok c := by
  unfold condition at h
  split at h
  · cases h
  · next v below =>
    split at h
    · cases h
    · next hv =>
      split at h
      · next hempty =>
        cases h
        exact ⟨v, by rw [List.isEmpty_iff.mp hempty], hv⟩
      · cases h

theorem settled_eq_ok {r : Except DecompileError (List Stmt × OperandStack)}
    (h : r.bind (settled stop) = .ok ss) : r = .ok (ss, []) := by
  obtain ⟨⟨body, rest⟩, rfl, hbody⟩ := bind_ok h
  unfold settled at hbody
  split at hbody
  · next hempty =>
    cases hbody
    rw [show rest = [] from List.isEmpty_iff.mp hempty]
  · cases hbody

theorem code_of_opening {last join : Nat} {lt : i < last} {le : last < stop}
    (h : b.opening i stop = .ok (.withElse last join lt le)) :
    ∃ d, b.code[last]? = some (.branch .always d) := by
  unfold opening at h
  split at h
  · cases h
  · next t _ =>
    split at h
    · split at h
      · split at h
        · next hcode =>
          split at h
          · split at h
            · cases h
            · cases h
              exact ⟨_, hcode⟩
          · cases h
        · cases h
      · cases h
    · cases h

/-- What is read off a stretch is read in one of these ways. -/
theorem decodes_of_region (hb : b.Closes) (stack : OperandStack) (acc : List Stmt) (i stop : Nat) :
    ∀ ss above, b.region stack acc i stop = .ok (ss, above) →
      ∃ more, ss = acc.reverse ++ more ∧
        b.library.Decodes b.names (b.stretch i stop) stack more above := by
  -- what follows the statement `s` is read after it
  have hcons {s : Stmt} {acc ss : List Stmt} {P : List Stmt → Prop}
      (h : ∃ more, ss = (s :: acc).reverse ++ more ∧ P more) :
      ∃ more, ss = acc.reverse ++ s :: more ∧ P more := by
    simpa using h
  fun_induction region b stack acc i stop with
  | case4 stack acc i stop _ _ back hloop _ hin _ hcode body value hbody test htest ihbody ih =>
    intro ss above h
    obtain ⟨rfl, -⟩ := loop_start hloop
    obtain ⟨_, rfl, hinner⟩ := ihbody _ _ hbody
    obtain ⟨more, rfl, hmore⟩ := hcons (ih _ _ h)
    refine ⟨_, rfl, ?_⟩
    rw [stretch_around hcode hin.1 hin.2]
    exact .doWhile htest hinner hmore
  | case10 stack acc i stop _ _ back hloop _ hin exit hexit hbetween value hprefix test htest body
      hbody hnot ihtest ihbody ih =>
    intro ss above h
    obtain ⟨rfl, hedge⟩ := loop_start hloop
    obtain ⟨_, hcode⟩ := code_of_loopExit? hexit
    obtain ⟨kind, d, hback, hkind⟩ := hb _ _ hedge
    obtain rfl : kind = .always := by
      cases kind with
      | always => rfl
      | ifFalse => exact absurd rfl hkind
      | ifTrue => exact (hnot d hback).elim
    obtain ⟨_, hnil, htested⟩ := ihtest _ _ hprefix
    obtain rfl := List.self_eq_append_right.mp hnil
    obtain ⟨_, rfl, hinner⟩ := ihbody _ _ (settled_eq_ok hbody)
    obtain ⟨more, rfl, hmore⟩ := hcons (ih _ _ h)
    refine ⟨_, rfl, ?_⟩
    rw [stretch_around hcode hbetween.1 (Nat.lt_trans hbetween.2 hin.2),
      stretch_around hback hbetween.2 hin.2]
    exact .while_ htest htested hinner hmore
  | case17 stack acc i stop _ _ _ hcode test htest t lt le body hbody _ ihbody ih =>
    intro ss above h
    obtain ⟨v, rfl, hv⟩ := condition_eq_ok htest
    obtain ⟨_, rfl, hinner⟩ := ihbody _ _ (settled_eq_ok hbody)
    obtain ⟨more, rfl, hmore⟩ := hcons (ih _ _ h)
    refine ⟨_, rfl, ?_⟩
    rw [stretch_cons hcode (Nat.lt_of_lt_of_le lt le), stretch_split lt le]
    exact .if_ hv hinner hmore
  | case20 stack acc i stop _ _ _ hcode test htest last join lt le hjoin body hbody arm harm _
      hshape ihbody iharm ih =>
    intro ss above h
    obtain ⟨v, rfl, hv⟩ := condition_eq_ok htest
    obtain ⟨_, hlast⟩ := code_of_opening hshape
    obtain ⟨_, rfl, hinner⟩ := ihbody _ _ (settled_eq_ok hbody)
    obtain ⟨_, rfl, hother⟩ := iharm _ _ (settled_eq_ok harm)
    obtain ⟨more, rfl, hmore⟩ := hcons (ih _ _ h)
    refine ⟨_, rfl, ?_⟩
    rw [stretch_cons hcode (Nat.lt_trans lt le), stretch_around hlast lt le,
      stretch_split hjoin.1 hjoin.2]
    exact .ifElse hv hinner hother hmore
  | case22 stack acc i stop hi _ hcode ih =>
    intro ss above h
    obtain ⟨more, rfl, hmore⟩ := ih _ _ h
    refine ⟨more, rfl, ?_⟩
    rw [stretch_cons hcode hi]
    exact .skip hmore
  | case26 stack acc i stop hi instruction _ _ _ _ hcode rest hrun ih =>
    intro ss above h
    obtain ⟨more, rfl, hmore⟩ := ih _ _ h
    refine ⟨more, rfl, ?_⟩
    rw [stretch_cons hcode hi]
    exact .step (step_moves hrun) hmore
  | case27 stack acc i stop hi instruction _ _ _ _ hcode s rest hrun ih =>
    intro ss above h
    obtain ⟨more, rfl, hmore⟩ := hcons (ih _ _ h)
    refine ⟨s :: more, rfl, ?_⟩
    rw [stretch_cons hcode hi]
    exact .step (step_moves hrun) hmore
  | case28 stack acc i stop hi =>
    intro ss above h
    cases h
    refine ⟨[], (List.append_nil _).symm, ?_⟩
    rw [stretch_nil (Nat.not_lt.mp hi)]
    exact .done
  | _ =>
    intro _ _ h
    cases h

theorem closes_noteBack {d : Body} {instruction : Instruction}
    (h : b.noteBack i instruction = .ok d) (hi : b.code[i]? = some instruction) (hb : b.Closes) :
    d.Closes := by
  obtain rfl | ⟨kind, distance, t, rfl, hkind, -, rfl⟩ := noteBack_eq_ok h
  · exact hb
  · intro head j hj
    dsimp only at hj
    rw [Std.TreeMap.getD_insert] at hj
    split at hj
    · rcases List.mem_cons.mp hj with rfl | hj
      · exact ⟨kind, distance, hi, hkind⟩
      · exact hb _ _ hj
    · exact hb _ _ hj

theorem noteBack_names {d : Body} {instruction : Instruction}
    (h : b.noteBack i instruction = .ok d) : d.names = b.names := by
  obtain rfl | ⟨_, _, _, -, -, -, rfl⟩ := noteBack_eq_ok h
  · rfl
  · rfl

theorem closes_noteAll {d : Body} {x y : Code} (h : b.noteAll x.length y = .ok d)
    (hcode : b.code = (x ++ y).toArray) (hb : b.Closes) : d.Closes ∧ d.names = b.names := by
  induction y generalizing b x with
  | nil =>
    cases h
    exact ⟨hb, rfl⟩
  | cons instruction y ih =>
    unfold noteAll at h
    split at h
    · cases h
    · next b' hb' =>
      have hi : b.code[x.length]? = some instruction := by simp [hcode]
      have hcode' : b'.code = (x ++ [instruction] ++ y).toArray := by
        rw [(noteBack_same hb').2, hcode, List.append_assoc]
        rfl
      have hlen : x.length + 1 = (x ++ [instruction]).length := by simp
      rw [hlen] at h
      obtain ⟨hd, hnames⟩ := ih h hcode' (closes_noteBack hb' hi hb)
      exact ⟨hd, hnames.trans (noteBack_names hb')⟩

theorem closes_ofCode {l : Library} {names : SlotNames} {code : Code}
    (h : ofCode l names code = .ok b) : b.Closes ∧ b.names = names := by
  refine closes_noteAll (x := []) h rfl fun head j hj => ?_
  simp at hj

/-- What a body says is read off its code from the first instruction to the last. -/
theorem decodes_of_statements {l : Library} {names : SlotNames} {code : Code}
    (hb : ofCode l names code = .ok b) (h : b.statements = .ok ss) :
    l.Decodes names code [] ss [] := by
  obtain ⟨hcloses, hnames⟩ := closes_ofCode hb
  obtain ⟨hlib, hcode⟩ := ofCode_same hb
  obtain ⟨_, rfl, hread⟩ := decodes_of_region hcloses _ _ _ _ _ _ (settled_eq_ok h)
  rwa [stretch_whole, hlib, hcode, hnames] at hread

end Body

end Lss
