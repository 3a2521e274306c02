import Lss.Proofs.Decompiled

/-!
# Names that decompiling introduces

A decompiled subroutine gives names to its parameters, to its locals and to the elements of its
loops. They are numbered: whatever the code, the parameters are `param1`, `param2` and so on, the
declared locals `var1`, `var2` and so on, and the elements `item1`, `item2` and so on, each in the
order of the text.
-/
namespace Lss

inductive Role where
  | parameter
  | declared
  | element
deriving DecidableEq, Repr

def Role.stem : Role → String
  | .parameter => "param"
  | .declared => "var"
  | .element => "item"

structure Binder where
  role : Role
  name : String
deriving DecidableEq, Repr

def Binder.names (role : Role) (bs : List Binder) : List String :=
  (bs.filter (·.role == role)).map (·.name)

def numbered (stem : String) (n : Nat) : List String :=
  (List.range n).map fun i => stem ++ toString (i + 1)

namespace Stmt

mutual

/-- The names that a statement and those inside it introduce, in the order of the text. -/
def binders : Stmt → List Binder
  | .block ⟨body, _⟩ => bindersAll body
  | .if_ _ body (some arm) _ => binders body ++ binders arm
  | .if_ _ body none _ => binders body
  | .while_ _ body | .doWhile body _ => binders body
  | .foreach x _ body => ⟨.element, x.text⟩ :: binders body
  | .var name _ => [⟨.declared, name.text⟩]
  | .expr _ | .return_ _ _ | .assign _ _ => []
  | .classDecl _ | .property _ | .subroutine _ | .global _ => []
termination_by structural s => s

def bindersAll : List Stmt → List Binder
  | [] => []
  | s :: ss => binders s ++ bindersAll ss
termination_by structural ss => ss

end

theorem bindersAll_eq (ss : List Stmt) : bindersAll ss = ss.flatMap binders := by
  induction ss with
  | nil => rfl
  | cons s ss ih => rw [bindersAll, ih, List.flatMap_cons]

@[simp] theorem bindersAll_append (ss ss' : List Stmt) :
    bindersAll (ss ++ ss') = bindersAll ss ++ bindersAll ss' := by
  simp only [bindersAll_eq, List.flatMap_append]

theorem bindersAll_eq_nil {ss : List Stmt} : bindersAll ss = [] ↔ ∀ s ∈ ss, s.binders = [] := by
  rw [bindersAll_eq, List.flatMap_eq_nil_iff]

end Stmt

def SubroutineOf.binders (s : Subroutine) : List Binder :=
  s.parameters.map (fun t => ⟨.parameter, t.text⟩) ++ Stmt.bindersAll s.body.statements

namespace Binder

variable {role : Role} {bs : List Binder}

@[simp] theorem names_append (role : Role) (bs bs' : List Binder) :
    names role (bs ++ bs') = names role bs ++ names role bs' := by
  simp only [names, List.filter_append, List.map_append]

theorem mem_names {name : String} : name ∈ names role bs ↔ ⟨role, name⟩ ∈ bs := by
  simp only [names, List.mem_map, List.mem_filter, beq_iff_eq]
  constructor
  · rintro ⟨⟨r, x⟩, ⟨hmem, rfl⟩, rfl⟩
    exact hmem
  · intro h
    exact ⟨⟨role, name⟩, ⟨h, rfl⟩, rfl⟩

/-- All names are for one role. -/
theorem names_map (role other : Role) (xs : List String) :
    names role (xs.map fun x => ⟨other, x⟩) = if other = role then xs else [] := by
  by_cases h : other = role
  · simp [names, List.filter_map, Function.comp_def, h]
  · simp [names, List.filter_map, Function.comp_def, h]

end Binder

/-! Statements as they are read introduce nothing. -/

namespace Stacked

variable {α β : Type} {Q : α → Prop}

def Gives (f : Stacked α) (Q : α → Prop) : Prop :=
  ∀ stack a rest, f.run.run stack = (.ok a, rest) → Q a

theorem Gives.pure {a : α} (h : Q a) : Gives (pure a) Q := by
  intro stack b rest hb
  cases hb
  exact h

theorem Gives.throw (e : DecompileError) : Gives (throw e) Q := by
  intro stack a rest ha
  cases ha

theorem Gives.bind {f : Stacked β} {g : β → Stacked α} (h : ∀ b, Gives (g b) Q) :
    Gives (f >>= g) Q := by
  intro stack a rest ha
  rw [run_bind] at ha
  split at ha
  · next b mid _ => exact h b mid a rest ha
  · cases ha

end Stacked

abbrev Unnamed (r : Option Stmt) : Prop := ∀ s ∈ r, s.binders = []

theorem ofReturn_binders (e : Expr) : (Stmt.ofReturn e).binders = [] := by
  unfold Stmt.ofReturn
  split <;> rfl

open Stacked in
/-- An instruction completes an assignment, an expression or a `return`, if anything. -/
theorem step_binders (l : Library) (names : SlotNames) (i : Instruction) (place : Nat) :
    Gives (step l names i place) Unnamed := by
  have hnone : Gives (pure none) Unnamed := .pure nofun
  have hsome {s : Stmt} (h : s.binders = []) : Gives (pure (some s)) Unnamed := by
    refine .pure fun x hx => ?_
    cases hx
    exact h
  cases i with
  | callIndirect argc =>
    refine .bind fun v => ?_
    split
    · refine .bind fun _ => .bind fun v => ?_
      split
      · split
        · exact .bind fun _ => hnone
        · exact .throw _
      · exact .throw _
    · exact .throw _
  | pop =>
    refine .bind fun v => ?_
    split
    · refine .bind fun stack => ?_
      split
      · exact .bind fun _ => hnone
      · exact .throw _
    · exact hsome rfl
    · exact hsome rfl
    · exact .throw _
  | return_ => exact .bind fun value => hsome (ofReturn_binders value)
  | branch | allocateLocals | checkArgumentCount | unresolvedCall => exact .throw _
  -- The others push a value or assign one, after some number of steps.
  | _ =>
    repeat first
      | exact hnone
      | exact hsome rfl
      | refine .bind fun _ => ?_

namespace Body

def ReadsPlain (r : Except DecompileError (List Stmt × OperandStack)) : Prop :=
  ∀ ss rest, r = .ok (ss, rest) → Stmt.bindersAll ss = []

theorem ReadsPlain.error (e : DecompileError) : ReadsPlain (.error e) := nofun

theorem ReadsPlain.settled {r : Except DecompileError (List Stmt × OperandStack)}
    (h : ReadsPlain r) {stop : Nat} {body : List Stmt} (hr : r.bind (settled stop) = .ok body) :
    Stmt.bindersAll body = [] := by
  obtain ⟨⟨ss, rest⟩, hok, hbody⟩ := bind_ok hr
  unfold Body.settled at hbody
  split at hbody
  · cases hbody
    exact h ss rest hok
  · cases hbody

theorem elseArm_binders (ss : List Stmt) : (elseArm ss).binders = Stmt.bindersAll ss := by
  unfold elseArm
  split
  · rw [Stmt.bindersAll, Stmt.bindersAll, List.append_nil]
  · rfl

theorem region_binders (b : Body) (stack : OperandStack) (acc : List Stmt) (i stop : Nat)
    (hacc : Stmt.bindersAll acc = []) : ReadsPlain (b.region stack acc i stop) := by
  have hcons {s : Stmt} {acc : List Stmt} (hs : s.binders = []) (h : Stmt.bindersAll acc = []) :
      Stmt.bindersAll (s :: acc) = [] := by
    rw [Stmt.bindersAll, hs, h, List.append_nil]
  fun_induction region b stack acc i stop with
  | case4 _ _ _ _ _ _ _ _ _ _ _ _ body _ hbody _ _ ihbody ih =>
    exact ih (hcons (ihbody rfl _ _ hbody) hacc)
  | case10 _ _ _ _ _ _ _ _ _ _ _ _ _ _ _ _ _ body hbody _ _ ihbody ih =>
    exact ih (hcons ((ihbody rfl).settled hbody) hacc)
  | case17 _ _ _ _ _ _ _ _ _ _ _ _ _ body hbody _ ihbody ih =>
    exact ih (hcons ((ihbody rfl).settled hbody) hacc)
  | case20 _ _ _ _ _ _ _ _ _ _ _ _ _ _ _ body hbody body' harm arm _ ihbody iharm ih =>
    refine ih (hcons ?_ hacc)
    rw [Stmt.binders, show arm.binders = Stmt.bindersAll body' from elseArm_binders body',
      (iharm rfl).settled harm, List.append_nil]
    exact (ihbody rfl).settled hbody
  | case22 _ _ _ _ _ _ _ ih => exact ih hacc
  | case26 _ _ _ _ _ _ _ _ _ _ _ _ _ ih => exact ih hacc
  | case27 _ _ _ _ _ _ _ _ _ _ _ s _ hrun ih =>
    exact ih (hcons (step_binders _ _ _ _ _ _ _ hrun s rfl) hacc)
  | case28 =>
    intro ss rest h
    cases h
    rw [Stmt.bindersAll_eq_nil] at hacc ⊢
    exact fun s hs => hacc s (List.mem_reverse.mp hs)
  | _ => exact .error _

theorem statements_binders {b : Body} {ss : List Stmt} (h : b.statements = .ok ss) :
    Stmt.bindersAll ss = [] :=
  (region_binders b [] [] 0 b.code.size rfl).settled h

end Body

/-! Loops get elements. -/

mutual

theorem Stmt.binders_replace (f : Expr → Option Expr) :
    (s : Stmt) → (s.replace f).binders = s.binders
  | .block ⟨body, _⟩ => by
    rw [replace, binders, bindersAll_replaceAll, binders]
    rfl
  | .if_ _ body (some arm) _ => by
    rw [replace, binders, binders_replace f body, binders_replace f arm, binders]
  | .if_ _ body none _ => by rw [replace, binders, binders_replace f body, binders]
  | .while_ _ body => by rw [replace, binders, binders_replace f body, binders]
  | .doWhile body _ => by rw [replace, binders, binders_replace f body, binders]
  | .foreach _ _ body => by rw [replace, binders, binders_replace f body, binders]
  | .expr _ | .return_ _ _ | .assign _ _ | .var _ _ | .classDecl _ | .property _
  | .subroutine _ | .global _ => rfl

theorem Stmt.bindersAll_replaceAll (f : Expr → Option Expr) (acc : List Stmt) :
    (ss : List Stmt) → bindersAll (replaceAll f acc ss) = bindersAll acc.reverse ++ bindersAll ss
  | [] => by rw [replaceAll, bindersAll, List.append_nil]
  | s :: ss => by
    rw [replaceAll, bindersAll_replaceAll f _ ss, List.reverse_cons, bindersAll_append, bindersAll,
      bindersAll, List.append_nil, binders_replace f s, bindersAll, List.append_assoc]

end

namespace Tidy

def items (n m : Nat) : List Binder :=
  (List.range' n (m - n)).map fun i => ⟨.element, "item" ++ toString (i + 1)⟩

theorem items_self (n : Nat) : items n n = [] := by rw [items, Nat.sub_self]; rfl

theorem items_append {n k m : Nat} (h : n ≤ k) (h' : k ≤ m) :
    items n k ++ items k m = items n m := by
  obtain ⟨a, rfl⟩ := Nat.exists_eq_add_of_le h
  obtain ⟨b, rfl⟩ := Nat.exists_eq_add_of_le h'
  rw [items, items, items, ← List.map_append, Nat.add_sub_cancel_left, Nat.add_sub_cancel_left,
    Nat.add_assoc, Nat.add_sub_cancel_left]
  have hrange : List.range' n a ++ List.range' (n + a) b = List.range' n (a + b) := by
    have h := @List.range'_append n a b 1
    rwa [Nat.one_mul] at h
  rw [hrange]

theorem items_succ {n m : Nat} (h : n + 1 ≤ m) :
    (⟨.element, (itemName (n + 1)).text⟩ : Binder) :: items (n + 1) m = items n m := by
  have hone : items n (n + 1) = [⟨.element, (itemName (n + 1)).text⟩] := by
    rw [items, Nat.add_sub_cancel_left]
    rfl
  rw [← items_append (Nat.le_succ n) h, hone, List.singleton_append]

theorem loopBody?_binders {head : LoopHead} {s : Stmt} {body : List Stmt} (hs : s.binders = [])
    (h : loopBody? head s = some body) : Stmt.bindersAll body = [] := by
  unfold loopBody? at h
  split at h
  · next c whole _ =>
    split at h
    · split at h
      · cases h
        have hwhole : ∀ x ∈ whole, x.binders = [] := Stmt.bindersAll_eq_nil.mp hs
        exact Stmt.bindersAll_eq_nil.mpr fun x hx => hwhole x ((List.dropLast_sublist _).subset hx)
      · cases h
    · cases h
  · cases h

theorem foreach?_binders {element : Token} {first second third : Stmt} {c : Expr}
    {body : List Stmt} (hs : third.binders = [])
    (h : foreach? element first second third = some (c, body)) : Stmt.bindersAll body = [] := by
  simp only [foreach?, Option.bind_eq_bind, Option.bind_eq_some_iff] at h
  obtain ⟨head, -, whole, hwhole, h⟩ := h
  split at h
  · cases h
  · split at h
    · cases h
    · cases h
      rw [Stmt.bindersAll_replaceAll, loopBody?_binders hs hwhole]
      rfl

/-- A statement with its elements goes on top of the others, and the rest is numbered from there. -/
theorem items_step {n k m : Nat} {s : Stmt} {acc out : List Stmt}
    (hs : n ≤ k ∧ s.binders = items n k)
    (hout : k ≤ m ∧ Stmt.bindersAll out = Stmt.bindersAll (s :: acc).reverse ++ items k m) :
    n ≤ m ∧ Stmt.bindersAll out = Stmt.bindersAll acc.reverse ++ items n m := by
  refine ⟨Nat.le_trans hs.1 hout.1, ?_⟩
  rw [hout.2, List.reverse_cons, Stmt.bindersAll_append, Stmt.bindersAll, Stmt.bindersAll,
    List.append_nil, hs.2, List.append_assoc, items_append hs.1 hout.1]

mutual

/-- Folding adds elements, numbered on from `n` in the order of the text. -/
theorem foldLoops_binders (n : Nat) (acc ss : List Stmt) (hss : Stmt.bindersAll ss = []) :
    n ≤ (foldLoops n acc ss).2 ∧ Stmt.bindersAll (foldLoops n acc ss).1
      = Stmt.bindersAll acc.reverse ++ items n (foldLoops n acc ss).2 := by
  match ss with
  | [] =>
    rw [foldLoops]
    exact ⟨Nat.le_refl n, by rw [items_self, List.append_nil]⟩
  | [a] =>
    obtain ⟨ha, -⟩ := List.append_eq_nil_iff.mp hss
    obtain ⟨hle, hitems⟩ := foldInside_binders n a ha
    rw [foldLoops]
    refine ⟨hle, ?_⟩
    dsimp only
    rw [List.reverse_cons, Stmt.bindersAll_append, Stmt.bindersAll, hitems, Stmt.bindersAll,
      List.append_nil]
  | [a, b] =>
    obtain ⟨ha, hb⟩ := List.append_eq_nil_iff.mp hss
    have hfirst := foldInside_binders n a ha
    have hrest := foldLoops_binders (foldInside n a).2 ((foldInside n a).1 :: acc) [b] hb
    rw [foldLoops]
    exact items_step hfirst hrest
  | a :: b :: c :: rest =>
    obtain ⟨ha, hbc⟩ := List.append_eq_nil_iff.mp hss
    rw [foldLoops]
    split
    · next collection body h =>
      have _lt := weightAll_foreach h
      obtain ⟨-, hc⟩ := List.append_eq_nil_iff.mp hbc
      obtain ⟨hc, hrest⟩ := List.append_eq_nil_iff.mp hc
      obtain ⟨hle, hbody⟩ := foldLoops_binders (n + 1) [] body (foreach?_binders hc h)
      have hloop : (Stmt.foreach (itemName (n + 1)) collection
          (.ofList (foldLoops (n + 1) [] body).1)).binders
            = items n (foldLoops (n + 1) [] body).2 := by
        rw [Stmt.binders, ← items_succ hle]
        exact congrArg _ hbody
      exact items_step ⟨Nat.le_of_succ_le hle, hloop⟩ (foldLoops_binders _ _ rest hrest)
    · have hfirst := foldInside_binders n a ha
      exact items_step hfirst (foldLoops_binders _ ((foldInside n a).1 :: acc) (b :: c :: rest) hbc)
termination_by Stmt.weightAll ss
decreasing_by all_goals (simp only [Stmt.weightAll] at *; omega)

theorem foldInside_binders (n : Nat) (s : Stmt) (hs : s.binders = []) :
    n ≤ (foldInside n s).2 ∧ (foldInside n s).1.binders = items n (foldInside n s).2 := by
  match s with
  | .block ⟨body, span⟩ =>
    rw [foldInside]
    exact foldLoops_binders n [] body hs
  | .if_ c body (some arm) span =>
    obtain ⟨hbody, harm⟩ := List.append_eq_nil_iff.mp hs
    obtain ⟨hle, hitems⟩ := foldInside_binders n body hbody
    obtain ⟨hle', hitems'⟩ := foldInside_binders (foldInside n body).2 arm harm
    rw [foldInside]
    refine ⟨Nat.le_trans hle hle', ?_⟩
    rw [Stmt.binders, hitems, hitems', items_append hle hle']
  | .if_ c body none span =>
    rw [foldInside]
    exact foldInside_binders n body hs
  | .while_ c body =>
    rw [foldInside]
    exact foldInside_binders n body hs
  | .doWhile body c =>
    rw [foldInside]
    exact foldInside_binders n body hs
  | .foreach _ _ _ | .var _ _ => cases hs
  | .expr _ | .return_ _ _ | .assign _ _ | .classDecl _ | .property _ | .subroutine _
  | .global _ =>
    rw [foldInside]
    · exact ⟨Nat.le_refl n, (items_self n).symm⟩
    all_goals exact fun _ => nofun
termination_by s.weight
decreasing_by all_goals (simp only [Stmt.weight] at *; omega)

end

theorem dropReturn_binders (body : List Stmt) :
    Stmt.bindersAll (dropReturn body) = Stmt.bindersAll body := by
  unfold dropReturn
  split
  · next span hlast =>
    obtain ⟨front, rfl⟩ := List.getLast?_eq_some_iff.mp hlast
    rw [List.dropLast_concat, Stmt.bindersAll_append]
    exact (List.append_nil _).symm
  · rfl

/-! Locals are declared, each once. -/

/-- No statement inside another declares a local; one of the body itself declares a placeholder, if
any. -/
def AtTop (s : Stmt) : Prop :=
  Binder.names .declared s.binders = [] ∨
    ∃ name init, s = .var (.identifier name) init ∧ name.toList.head? = some '$'

/-- The locals that were met are those that have been declared and those that will be at the top,
each once. -/
structure Once (l : Locals) (ss : List Stmt) : Prop where
  nodup : (Binder.names .declared (Stmt.bindersAll ss) ++ l.hoisted).Nodup
  seen : ∀ name ∈ Binder.names .declared (Stmt.bindersAll ss) ++ l.hoisted, l.seen.contains name
  hoisted : ∀ name ∈ l.hoisted, name.toList.head? = some '$'

theorem Once.meet {l : Locals} {ss : List Stmt} (h : Once l ss) (e : Expr) :
    Once (l.meet e) ss := by
  unfold Locals.meet
  split
  · next name hplaceholder =>
    by_cases hname : l.seen.contains name
    · rw [if_pos hname]
      exact h
    · rw [if_neg hname]
      have hperm : (Binder.names .declared (Stmt.bindersAll ss) ++ name :: l.hoisted).Perm
          (name :: (Binder.names .declared (Stmt.bindersAll ss) ++ l.hoisted)) := List.perm_middle
      constructor
      · rw [hperm.nodup_iff, List.nodup_cons]
        exact ⟨fun hmem => hname (h.seen name hmem), h.nodup⟩
      · intro x hx
        rcases List.mem_cons.mp (hperm.mem_iff.mp hx) with rfl | hx
        · simp
        · simpa using .inr (h.seen x hx)
      · exact List.forall_mem_cons.mpr ⟨head_of_placeholder? hplaceholder, h.hoisted⟩
  · exact h

theorem Once.declare {l : Locals} {ss : List Stmt} (h : Once l ss) {name : String}
    (hname : ¬ l.seen.contains name) (init : Option Expr) :
    Once { l with seen := l.seen.insert name } (.var (.identifier name) init :: ss) := by
  constructor
  · refine List.nodup_cons.mpr ⟨fun hmem => hname (h.seen name hmem), h.nodup⟩
  · intro x hx
    rcases List.mem_cons.mp hx with rfl | hx
    · simp
    · simpa using .inr (h.seen x hx)
  · exact h.hoisted

theorem declared?_fresh {l : Locals} {s : Stmt} {name : String} {init : Option Expr}
    (h : declared? l s = some (name, init)) :
    ¬ l.seen.contains name ∧ name.toList.head? = some '$' ∧ s.binders = [] := by
  unfold declared? at h
  split at h
  · split at h
    · next hname =>
      split at h
      · cases h
      · next hnew =>
        cases h
        rw [Bool.or_eq_true, not_or] at hnew
        exact ⟨hnew.1, head_of_placeholder? hname, rfl⟩
    · cases h
  · cases h

theorem Once.perm {l : Locals} {ss ss' : List Stmt} (h : Once l ss) (hperm : ss.Perm ss') :
    Once l ss' := by
  have hnames : (Binder.names .declared (Stmt.bindersAll ss) ++ l.hoisted).Perm
      (Binder.names .declared (Stmt.bindersAll ss') ++ l.hoisted) := by
    simp only [Stmt.bindersAll_eq]
    exact ((hperm.flatMap_right _).filter _ |>.map _).append_right _
  constructor
  · exact hnames.nodup_iff.mp h.nodup
  · intro x hx
    exact h.seen x (hnames.mem_iff.mpr hx)
  · exact h.hoisted

theorem Once.cons {l : Locals} {s : Stmt} {ss : List Stmt} (h : Once l ss)
    (hs : Binder.names .declared s.binders = []) : Once l (s :: ss) := by
  have hnames : Binder.names .declared (Stmt.bindersAll (s :: ss))
      = Binder.names .declared (Stmt.bindersAll ss) := by
    rw [Stmt.bindersAll, Binder.names_append, hs, List.nil_append]
  constructor
  · rw [hnames]
    exact h.nodup
  · rw [hnames]
    exact h.seen
  · exact h.hoisted

/-- The names of statements behind others in reverse. -/
theorem names_onto (role : Role) (s : Stmt) (acc ss : List Stmt) :
    Binder.names role (Stmt.bindersAll ((s :: acc).reverse ++ ss))
      = Binder.names role (Stmt.bindersAll acc.reverse)
        ++ (Binder.names role s.binders ++ Binder.names role (Stmt.bindersAll ss)) := by
  rw [List.reverse_cons, List.append_assoc, List.singleton_append, Stmt.bindersAll_append,
    Stmt.bindersAll, Binder.names_append, Binder.names_append]

/-- Every local is declared once, all declarations stand in the body itself, and the elements stay
as they are. -/
theorem declareOnto_once {l : Locals} {acc ss : List Stmt} (h : Once l acc)
    (hacc : ∀ s ∈ acc, AtTop s) (hss : ∀ s ∈ ss, Binder.names .declared s.binders = []) :
    Once (declareOnto l acc ss).2 (declareOnto l acc ss).1 ∧
      (∀ s ∈ (declareOnto l acc ss).1, AtTop s) ∧
      Binder.names .element (Stmt.bindersAll (declareOnto l acc ss).1)
        = Binder.names .element (Stmt.bindersAll (acc.reverse ++ ss)) := by
  induction ss generalizing l acc with
  | nil =>
    rw [declareOnto, List.append_nil]
    refine ⟨h.perm (List.reverse_perm acc).symm, fun s hs => ?_, rfl⟩
    exact hacc s (List.mem_reverse.mp hs)
  | cons s ss ih =>
    have hs := hss s List.mem_cons_self
    have hrest : ∀ x ∈ ss, Binder.names .declared x.binders = [] :=
      fun x hx => hss x (List.mem_cons_of_mem s hx)
    rw [declareOnto]
    split
    · next name init hd =>
      obtain ⟨hnew, hhead, hnone⟩ := declared?_fresh hd
      have honce := Stmt.fold_keeps (P := fun l => Once l (.var (.identifier name) init :: acc))
        (fun _ e h => h.meet e) (.var (.identifier name) init) (h.declare hnew init)
      have hvar : AtTop (.var (.identifier name) init) := .inr ⟨name, init, rfl, hhead⟩
      obtain ⟨hdone, hall, hitems⟩ :=
        ih honce (List.forall_mem_cons.mpr ⟨hvar, hacc⟩) hrest
      refine ⟨hdone, hall, hitems.trans ?_⟩
      rw [names_onto, Stmt.bindersAll_append, Stmt.bindersAll, hnone, Binder.names_append]
      rfl
    · have honce := s.fold_keeps (P := fun l => Once l (s :: acc)) (fun _ e h => h.meet e)
        (h.cons hs)
      obtain ⟨hdone, hall, hitems⟩ :=
        ih honce (List.forall_mem_cons.mpr ⟨.inl hs, hacc⟩) hrest
      refine ⟨hdone, hall, hitems.trans ?_⟩
      rw [List.reverse_cons, List.append_assoc, List.singleton_append]

/-- Declarations of these locals, without values. -/
theorem bindersAll_hoisted (names : List String) :
    Stmt.bindersAll (names.map fun name => .var (.identifier name) none)
      = names.map fun name => ⟨.declared, name⟩ := by
  rw [Stmt.bindersAll_eq, List.flatMap_map]
  exact (List.map_eq_flatMap).symm

theorem declareLocals_once {body : List Stmt}
    (h : ∀ s ∈ body, Binder.names .declared s.binders = []) :
    (Binder.names .declared (Stmt.bindersAll (declareLocals body))).Nodup ∧
      (∀ s ∈ declareLocals body, AtTop s) ∧
      Binder.names .element (Stmt.bindersAll (declareLocals body))
        = Binder.names .element (Stmt.bindersAll body) := by
  have hstart : Once {} [] := ⟨List.nodup_nil, nofun, nofun⟩
  obtain ⟨honce, htop, hitems⟩ := declareOnto_once hstart nofun h
  unfold declareLocals
  dsimp only
  refine ⟨?_, fun s hs => ?_, ?_⟩
  · rw [Stmt.bindersAll_append, bindersAll_hoisted, Binder.names_append, Binder.names_map,
      if_pos rfl]
    have hperm := (List.reverse_perm (declareOnto {} [] body).2.hoisted).append_right
      (Binder.names .declared (Stmt.bindersAll (declareOnto {} [] body).1))
    exact (hperm.trans List.perm_append_comm).nodup_iff.mpr honce.nodup
  · rcases List.mem_append.mp hs with hs | hs
    · obtain ⟨name, hname, rfl⟩ := List.mem_map.mp hs
      exact .inr ⟨name, none, rfl, honce.hoisted name (List.mem_reverse.mp hname)⟩
    · exact htop s hs
  · rw [Stmt.bindersAll_append, bindersAll_hoisted, Binder.names_append, Binder.names_map,
      if_neg nofun, List.nil_append]
    exact hitems

/-! Declared locals are numbered. -/

def locals (n k : Nat) : List String := (List.range' n k).map fun i => "var" ++ toString (i + 1)

theorem locals_succ (n k : Nat) :
    ("var" ++ toString (n + 1)) :: locals (n + 1) k = locals n (k + 1) := by
  rw [locals, locals, List.range'_succ, List.map_cons]

/-- What is no declaration keeps its place. -/
theorem renameOnto_other {s : Stmt} (h : ∀ name init, s ≠ .var name init) (names : Renaming)
    (acc ss : List Stmt) : renameOnto names acc (s :: ss) = renameOnto names (s :: acc) ss := by
  rw [renameOnto]
  exact h

/-- Every declared local gets the next number, and the elements stay as they are. -/
theorem renameOnto_binders {names : Renaming} {acc ss : List Stmt} (htop : ∀ s ∈ ss, AtTop s)
    (hnodup : (Binder.names .declared (Stmt.bindersAll ss)).Nodup)
    (hnew : ∀ name ∈ Binder.names .declared (Stmt.bindersAll ss), name ∉ names) :
    (∃ k, Binder.names .declared (Stmt.bindersAll (renameOnto names acc ss).1)
      = Binder.names .declared (Stmt.bindersAll acc.reverse) ++ locals names.size k) ∧
      Binder.names .element (Stmt.bindersAll (renameOnto names acc ss).1)
        = Binder.names .element (Stmt.bindersAll (acc.reverse ++ ss)) := by
  induction ss generalizing names acc with
  | nil =>
    rw [renameOnto, List.append_nil]
    exact ⟨⟨0, (List.append_nil _).symm⟩, rfl⟩
  | cons s ss ih =>
    have hrest : ∀ x ∈ ss, AtTop x := fun x hx => htop x (List.mem_cons_of_mem s hx)
    rw [Stmt.bindersAll, Binder.names_append] at hnodup hnew
    rcases htop s List.mem_cons_self with hs | ⟨old, init, rfl, hold⟩
    · rw [hs, List.nil_append] at hnodup hnew
      obtain ⟨⟨k, hk⟩, hitems⟩ := @ih names (s :: acc) hrest hnodup hnew
      have hvar : ∀ name init, s ≠ .var name init := by
        rintro name init rfl
        cases hs
      rw [renameOnto_other hvar]
      refine ⟨⟨k, hk.trans ?_⟩, hitems.trans ?_⟩
      · have h := names_onto .declared s acc []
        rw [List.append_nil, hs] at h
        rw [h]
        exact congrArg (· ++ _) (List.append_nil _)
      · rw [List.reverse_cons, List.append_assoc, List.singleton_append]
    · obtain ⟨hfresh, hnodup⟩ := List.nodup_cons.mp hnodup
      have hnone : old ∉ names := hnew old List.mem_cons_self
      generalize hnext : "var" ++ toString (names.size + 1) = next
      generalize hlater : Std.TreeMap.insert names old next = later
      have hsize : later.size = names.size + 1 := by
        rw [← hlater, Std.TreeMap.size_insert, if_neg (mt Std.TreeMap.mem_iff_contains.mpr hnone)]
      have hstill : ∀ name ∈ Binder.names .declared (Stmt.bindersAll ss), name ∉ later := by
        intro name hname hmem
        rw [← hlater, Std.TreeMap.mem_insert] at hmem
        rcases hmem with heq | hmem
        · have := Std.LawfulEqCmp.eq_of_compare heq
          subst this
          exact hfresh hname
        · exact hnew name (List.mem_cons_of_mem _ hname) hmem
      obtain ⟨⟨k, hk⟩, hitems⟩ :=
        @ih later (.var (.identifier next) init :: acc) hrest hnodup hstill
      rw [renameOnto_placeholder hold, hnext, hlater]
      refine ⟨⟨k + 1, hk.trans ?_⟩, hitems.trans ?_⟩
      · have h := names_onto .declared (.var (.identifier next) init) acc []
        rw [List.append_nil] at h
        rw [h, hsize, ← locals_succ, hnext, List.append_assoc]
        rfl
      · rw [names_onto, Stmt.bindersAll_append, Stmt.bindersAll, Binder.names_append,
          Binder.names_append]
        rfl

theorem names_items (role : Role) (m : Nat) :
    Binder.names role (items 0 m) = if .element = role then numbered "item" m else [] := by
  rw [numbered, ← Binder.names_map role .element, List.map_map, List.range_eq_range']
  rfl

def declaredBody (ss : List Stmt) : List Stmt :=
  declareLocals (dropReturn (foldLoops 0 [] ss).1)

/-- What is folded introduces elements only, where the statements as they were read introduce
nothing. -/
theorem folded_binders {ss : List Stmt} (h : Stmt.bindersAll ss = []) :
    Stmt.bindersAll (dropReturn (foldLoops 0 [] ss).1) = items 0 (foldLoops 0 [] ss).2 := by
  rw [dropReturn_binders]
  exact (foldLoops_binders 0 [] ss h).2

theorem folded_plain {ss : List Stmt} (h : Stmt.bindersAll ss = []) :
    ∀ s ∈ dropReturn (foldLoops 0 [] ss).1, Binder.names .declared s.binders = [] := by
  intro s hs
  rw [List.eq_nil_iff_forall_not_mem]
  intro name hname
  have hmem : name ∈ Binder.names .declared
      (Stmt.bindersAll (dropReturn (foldLoops 0 [] ss).1)) := by
    rw [Binder.mem_names] at hname ⊢
    rw [Stmt.bindersAll_eq]
    exact List.mem_flatMap.mpr ⟨s, hs, hname⟩
  rw [folded_binders h, names_items] at hmem
  cases hmem

/-- Where the statements as they were read introduce nothing, every local is declared once, in the
body itself, and the elements are numbered. -/
theorem declaredBody_once {ss : List Stmt} (h : Stmt.bindersAll ss = []) :
    (Binder.names .declared (Stmt.bindersAll (declaredBody ss))).Nodup ∧
      (∀ s ∈ declaredBody ss, AtTop s) ∧
      ∃ m, Binder.names .element (Stmt.bindersAll (declaredBody ss)) = numbered "item" m := by
  obtain ⟨hnodup, htop, helements⟩ := declareLocals_once (folded_plain h)
  refine ⟨hnodup, htop, (foldLoops 0 [] ss).2, ?_⟩
  rw [declaredBody, helements, folded_binders h, names_items, if_pos rfl]

end Tidy

/-- Tidying introduces numbered locals and numbered elements, where the statements as they were read
introduce nothing. -/
theorem tidy_binders {body : List Stmt} (h : Stmt.bindersAll body = []) :
    (∃ k, Binder.names .declared (Stmt.bindersAll (tidy body)) = numbered "var" k) ∧
      ∃ m, Binder.names .element (Stmt.bindersAll (tidy body)) = numbered "item" m := by
  obtain ⟨hnodup, htop, m, helements⟩ := Tidy.declaredBody_once h
  obtain ⟨⟨k, hk⟩, hkept⟩ := @Tidy.renameOnto_binders {} [] _ htop hnodup fun _ _ h => by simp at h
  have htidy : Stmt.bindersAll (tidy body)
      = Stmt.bindersAll (Tidy.renameOnto {} [] (Tidy.declaredBody body)).1 :=
    Stmt.bindersAll_replaceAll _ [] _
  rw [htidy]
  refine ⟨⟨k, hk.trans ?_⟩, ⟨m, hkept.trans helements⟩⟩
  rw [numbered, List.range_eq_range']
  rfl

/-! Whole subroutines. -/

mutual

/-- No statement introduces a parameter. -/
theorem Stmt.names_parameter_binders : (s : Stmt) → Binder.names .parameter s.binders = []
  | .block ⟨body, _⟩ => names_parameter_bindersAll body
  | .if_ _ body (some arm) _ => by
    rw [binders, Binder.names_append, names_parameter_binders body, names_parameter_binders arm,
      List.append_nil]
  | .if_ _ body none _ | .while_ _ body | .doWhile body _ | .foreach _ _ body =>
    names_parameter_binders body
  | .var _ _ | .expr _ | .return_ _ _ | .assign _ _ | .classDecl _ | .property _ | .subroutine _
  | .global _ => rfl

theorem Stmt.names_parameter_bindersAll :
    (ss : List Stmt) → Binder.names .parameter (bindersAll ss) = []
  | [] => rfl
  | s :: ss => by
    rw [bindersAll, Binder.names_append, names_parameter_binders s, names_parameter_bindersAll ss,
      List.append_nil]

end

theorem SlotNames.parameters_eq (names : SlotNames) :
    names.parameters = (numbered "param" names.parameterCount.toNat).map .identifier := by
  rw [parameters, numbered, List.map_map]
  refine List.map_congr_left fun p hp => ?_
  have hlt := List.mem_range.mp hp
  have hthis : (names.isMethod && names.first + p == 0) = false := by
    unfold first
    cases names.isMethod <;> simp
  rw [Function.comp, token, hthis, if_neg Bool.false_ne_true, if_pos (by omega),
    Nat.add_sub_cancel_left]

/-- The names that a decompiled subroutine introduces for each role are numbered. -/
theorem Library.subroutine_binders {l : Library} {name : String} {names : SlotNames} {code : Code}
    {s : Subroutine} (h : l.subroutine name names code = .ok s) (role : Role) :
    ∃ n, Binder.names role s.binders = numbered role.stem n := by
  obtain ⟨b, hb, h⟩ := bind_ok h
  obtain ⟨ss, hss, h⟩ := bind_ok h
  cases h
  have hparameters : names.parameters.map (fun t => (⟨.parameter, t.text⟩ : Binder))
      = (numbered "param" names.parameterCount.toNat).map fun x => ⟨.parameter, x⟩ := by
    rw [names.parameters_eq, List.map_map]
    rfl
  obtain ⟨⟨k, hk⟩, ⟨m, hm⟩⟩ := tidy_binders (Body.statements_binders hss)
  unfold SubroutineOf.binders
  rw [Binder.names_append, hparameters, Binder.names_map]
  cases role with
  | parameter =>
    rw [if_pos rfl, Stmt.names_parameter_bindersAll, List.append_nil]
    exact ⟨_, rfl⟩
  | declared => exact ⟨k, hk⟩
  | element => exact ⟨m, hm⟩

end Lss
