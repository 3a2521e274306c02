import Lss.Proofs.Compared

/-!
# Two runs over a body

Statements hand out slots and measure branches without looking at a pool. So where codes are
compared instruction by instruction, bodies agree in slots, targets and counts to the last byte.
-/
namespace Lss

open Lower

theorem Branch.forward_congr {a b : Code} (h : a.size = b.size) (span : Span) :
    forward a span = forward b span := by
  rw [forward, forward, h]

theorem Branch.backward_congr {a b : Code} (h : a.size = b.size) (span : Span) :
    backward a span = backward b span := by
  rw [backward, backward, h]

namespace Lower.Comparison

variable {c : Comparison} {w : c.World} {α β γ δ : Type} {f : Lower α} {g : Lower β}
  {R S : c.World → α → β → Prop}

theorem Rel.imp (h : c.Rel w f g R) (hRS : ∀ v a b, c.Later w v → R v a b → S v a b) :
    c.Rel w f g S := by
  rw [← bind_pure f, ← bind_pure g]
  exact c.bind h (fun a => c.composes.pure a) fun v a b hlater hr => c.pure (hRS v a b hlater hr)

theorem Rel.map {k : α → γ} {l : β → δ} {S : c.World → γ → δ → Prop}
    (h : c.Rel w f g fun v a b => S v (k a) (l b)) : c.Rel w (k <$> f) (l <$> g) S := by
  rw [map_eq_pure_bind, map_eq_pure_bind]
  exact c.bind h (fun a => c.composes.pure (k a)) fun _ _ _ _ hr => c.pure hr

/-- Runs that are over, with one error or with results that are as `R` says. -/
inductive Ends (R : α → β → Prop) : Except CompileError α → Except CompileError β → Prop
  | ok {a : α} {b : β} : R a b → Ends R (.ok a) (.ok b)
  | error (e : CompileError) : Ends R (.error e) (.error e)

theorem ended {x : Except CompileError α} {y : Except CompileError β} (h : Ends (R w) x y) :
    c.Rel w (ofExcept x) (ofExcept y) R := by
  cases h with
  | ok hr => exact c.pure hr
  | error e => exact c.throw

theorem same {x y : Except CompileError α} (h : x = y) :
    c.Rel w (ofExcept x) (ofExcept y) fun _ a b => a = b := by
  subst h
  cases x with
  | ok a => exact c.pure rfl
  | error e => exact c.throw

/-- Codes compared instruction by instruction. -/
structure Forms (c : Comparison) (D : c.World → Code → Code → Prop) : Prop where
  later {w w' : c.World} {x y : Code} : D w x y → c.Later w w' → D w' x y
  nil {w : c.World} : D w [] []
  append {w : c.World} {x y x' y' : Code} : D w x y → D w x' y' → D w (x ++ x') (y ++ y')
  one {w : c.World} {i j : Instruction} : i.form = j.form →
    List.Forall₂ (c.Refers w) i.references j.references → D w [i] [j]
  size_eq {w : c.World} {x y : Code} : D w x y → x.size = y.size

variable {D : c.World → Code → Code → Prop} {x y x' y' : Code}

namespace Forms

variable (h : c.Forms D)
include h

/-- Code that refers to nothing by a number. -/
theorem plain (x : Code) (hx : x.flatMap Instruction.references = [] := by rfl) : D w x x := by
  induction x with
  | nil => exact h.nil
  | cons i x ih =>
    obtain ⟨hi, hx⟩ := List.append_eq_nil_iff.mp hx
    exact h.append (x := [i]) (y := [i]) (h.one rfl (hi ▸ .nil)) (ih hx)

theorem snoc (hxy : D w x y) (i : Instruction) (hi : i.references = [] := by rfl) :
    D w (x ++ [i]) (y ++ [i]) :=
  h.append hxy (h.one rfl (hi ▸ .nil))

/-- An instruction between two codes. -/
theorem join (hxy : D w x y) (i : Instruction) (hxy' : D w x' y')
    (hi : i.references = [] := by rfl) : D w (x ++ i :: x') (y ++ i :: y') :=
  h.append hxy (h.append (x := [i]) (y := [i]) (h.one rfl (hi ▸ .nil)) hxy')

theorem symbol {s t : SymbolId} (hst : c.Symbol w s t) (make : SymbolId → Instruction)
    (hform : ∀ u, (make u).form = make ⟨0⟩ := by intro; rfl)
    (href : ∀ u, (make u).references = [.symbol u] := by intro; rfl) : D w [make s] [make t] := by
  refine h.one ((hform s).trans (hform t).symm) ?_
  rw [href, href]
  exact .cons (.symbol hst) .nil

theorem codes (env : Env) : c.Codes env fun w _ => D w where
  later := h.later
  nil := h.nil
  append := h.append
  apply hxy _ hij := h.append hxy (h.one hij.form hij.references)
  this _ := h.plain _
  dup hxy := h.snoc hxy .dup
  construct {w s t x y argc} hxy hst := by
    have hfront : D w [.createObject s, .dup] [.createObject t, .dup] :=
      h.snoc (h.symbol hst .createObject) .dup
    have hback : D w [.lookupMethod s, .callIndirect argc, .pop]
        [.lookupMethod t, .callIndirect argc, .pop] :=
      h.snoc (h.snoc (h.symbol hst .lookupMethod) (.callIndirect argc)) .pop
    exact h.append (h.append hfront hxy) hback

end Forms

/-- Two environments in which names are looked up and lines are marked alike. -/
structure Surroundings (c : Comparison) (e f : Env) : Prop extends c.Environments e f where
  globals (t : Token) (w : c.World) : c.Rel w (readGlobal e t) (readGlobal f t) fun _ s s' => s = s'
  lineNumbers : e.lineNumbers = f.lineNumbers
  all (name : String) : c.Name name

/-- Codes that are as `D` says, and the same scopes. -/
def Agrees (D : c.World → Code → Code → Prop) (w : c.World) (a b : Lowered) : Prop :=
  D w a.1 b.1 ∧ a.2 = b.2

end Lower.Comparison

section

variable {c : Comparison} {D : c.World → Code → Code → Prop} {e f : Env} {w : c.World}

theorem loopCode_ends (h : c.Forms D) {x y x' y' : Code} (hxy : D w x y) (hxy' : D w x' y')
    (span : Span) : Comparison.Ends (D w) (loopCode x x' span) (loopCode y y' span) := by
  have hback : Branch.backward (x ++ .branch .ifFalse 0 :: x') span =
      Branch.backward (y ++ .branch .ifFalse 0 :: y') span :=
    Branch.backward_congr (h.size_eq (h.join hxy (.branch .ifFalse 0) hxy')) span
  have hout (back : Int16) : Branch.forward (x' ++ [Instruction.branch .always back]) span =
      Branch.forward (y' ++ [Instruction.branch .always back]) span :=
    Branch.forward_congr (h.size_eq (h.snoc hxy' (.branch .always back))) span
  unfold loopCode
  rw [hback]
  cases Branch.backward (y ++ .branch .ifFalse 0 :: y') span with
  | error e => exact .error e
  | ok back =>
    simp only [bind, Except.bind, hout]
    cases Branch.forward (y' ++ [Instruction.branch .always back]) span with
    | error e => exact .error e
    | ok out => exact .ok (h.snoc (h.join hxy (.branch .ifFalse out) hxy') (.branch .always back))

theorem finish_ends (h : c.Forms D) {x y : Code} (hxy : D w x y) (d : Draft) (scopes : Scopes)
    (endsInReturn : Bool) (span : Span) :
    Comparison.Ends (D w) ({ d with code := x.toArray, scopes }.finish endsInReturn span)
      ({ d with code := y.toArray, scopes }.finish endsInReturn span) := by
  unfold Draft.finish
  split
  · exact .error _
  · refine .ok (h.append (h.append (h.plain _ ?_) hxy) (h.plain _ ?_))
    · simp only [Draft.prologue]
      split <;> split <;> rfl
    · simp only [Draft.implicitReturn]
      split <;> rfl

variable (h : c.Forms D) (hef : c.Surroundings e f)
include h hef

theorem reads_surroundings (scopes : Scopes) : c.Reads (fun w _ => D w) e f scopes where
  global t w := by
    refine (hef.globals t w).imp ?_
    rintro v s _ - rfl
    exact h.plain _
  slot _ _ := h.plain _
  element _ _ := ⟨Expr.names_of_forall (fun t _ => hef.all t.text) _, h.plain _⟩

theorem lowered_compares (scopes : Scopes) (x : Expr) (w : c.World) :
    c.Rel w (lower e scopes x) (lower f scopes x) D :=
  lower_compares (h.codes e) hef.toEnvironments (reads_surroundings h hef scopes)
    (x.names_of_forall fun t _ => hef.all t.text) w

omit h in
theorem assignedSlot_compares (scopes : Scopes) (t : Token) (w : c.World) :
    c.Rel w (assignedSlot e scopes t) (assignedSlot f scopes t) fun _ s s' => s = s' := by
  unfold assignedSlot
  split
  · exact c.pure rfl
  · exact c.throw
  · exact hef.globals t w

theorem lowerAssign_compares (scopes : Scopes) (target value : Expr) (w : c.World) :
    c.Rel w (lowerAssign e scopes target value) (lowerAssign f scopes target value) D := by
  have hnames (x : Expr) : x.Names c.Proper := x.names_of_forall fun t _ => hef.all t.text
  have hslots (t : Token) (w : c.World) : c.Rel w (assignedSlot e scopes t)
      (assignedSlot f scopes t) fun _ s s' => s = s' ∧ True :=
    (assignedSlot_compares hef scopes t w).imp fun _ _ _ _ heq => ⟨heq, trivial⟩
  have hassign := assignOver_compares (A := fun _ _ => True) (w := w) (h.codes e)
    hef.toEnvironments (readName_compares (h.codes e) hef.toEnvironments
      (reads_surroundings h hef scopes)) hslots (fun _ _ => trivial) (hnames target) (hnames value)
  rw [assignOver_lower, assignOver_lower] at hassign
  refine hassign.imp ?_
  rintro v _ _ - ⟨x, y, i, j, rfl, rfl, hxy, hij⟩
  exact h.append hxy (h.one hij.form hij.references)

theorem lowerVar_compares (scopes : Scopes) (name : Token) (init : Option Expr) (w : c.World) :
    c.Rel w (lowerVar e scopes name init) (lowerVar f scopes name init) (Comparison.Agrees D) := by
  unfold lowerVar
  cases init with
  | none =>
    simp only [pure_bind]
    split
    · exact c.pure ⟨h.snoc (h.plain [.pushNothing]) _, rfl⟩
    · exact c.throw
  | some x =>
    refine c.bind (lowered_compares h hef scopes x w) (fun _ => ?_) fun v _ _ _ hxy => ?_
    · split
      · exact c.composes.pure _
      · exact c.composes.throw _
    · split
      · exact c.pure ⟨h.snoc hxy _, rfl⟩
      · exact c.throw

/-- A statement with the mark of its line. -/
theorem marked_compares {a b : Lower Lowered} (s : Stmt) (hab : c.Rel w a b (Comparison.Agrees D)) :
    c.Rel w (marked e s <$> a) (marked f s <$> b) (Comparison.Agrees D) := by
  have hmark : lineMark e s = lineMark f s := by rw [lineMark, lineMark, hef.lineNumbers]
  refine .map (hab.imp ?_)
  rintro v ⟨x, s'⟩ ⟨y, _⟩ - ⟨hxy, rfl⟩
  refine ⟨?_, rfl⟩
  rw [marked, marked, hmark]
  refine h.append (h.plain _ ?_) hxy
  unfold lineMark
  split <;> rfl

/-! Statements, first those that hold others. -/

section

variable {body : Stmt}
  (hbody : ∀ scopes w, c.Rel w (lowerStmt e scopes body) (lowerStmt f scopes body)
    (Comparison.Agrees D))
include hbody

theorem if_compares (scopes : Scopes) (w : c.World) (test : Expr) (span : Span) :
    c.Rel w (lowerStmt e scopes (.if_ (some test) body none span))
      (lowerStmt f scopes (.if_ (some test) body none span)) (Comparison.Agrees D) := by
  have hc := c.composes
  simp only [lowerStmt]
  refine c.bind (lowered_compares h hef scopes test w) (fun _ =>
    hc.bind (hc.map (lowerStmt_composed hc body _)) fun _ => hc.bind (hc.ofExcept _) fun _ =>
      hc.pure _) fun v t t' _ htest => ?_
  refine c.bind (marked_compares h hef body (hbody scopes v)) (fun _ =>
    hc.bind (hc.ofExcept _) fun _ => hc.pure _) ?_
  rintro v ⟨x, s⟩ ⟨y, _⟩ hlater ⟨hxy, rfl⟩
  have htest : D v t t' := h.later htest hlater
  refine c.bind (Comparison.same (Branch.forward_congr (h.size_eq hxy) span)) (fun _ =>
    hc.pure _) ?_
  rintro v skip _ hlater rfl
  exact c.pure ⟨h.join (h.later htest hlater) _ (h.later hxy hlater), rfl⟩

theorem ifElse_compares {arm : Stmt} (harm : ∀ scopes w, c.Rel w (lowerStmt e scopes arm)
    (lowerStmt f scopes arm) (Comparison.Agrees D)) (scopes : Scopes) (w : c.World) (test : Expr)
    (span : Span) :
    c.Rel w (lowerStmt e scopes (.if_ (some test) body (some arm) span))
      (lowerStmt f scopes (.if_ (some test) body (some arm) span)) (Comparison.Agrees D) := by
  have hc := c.composes
  simp only [lowerStmt]
  refine c.bind (lowered_compares h hef scopes test w) (fun _ =>
    hc.bind (hc.map (lowerStmt_composed hc body _)) fun _ => hc.bind (hc.ofExcept _) fun _ =>
      hc.bind (hc.map (lowerStmt_composed hc arm _)) fun _ => hc.bind (hc.ofExcept _) fun _ =>
        hc.pure _) fun v t t' _ htest => ?_
  refine c.bind (marked_compares h hef body (hbody scopes v)) (fun _ =>
    hc.bind (hc.ofExcept _) fun _ => hc.bind (hc.map (lowerStmt_composed hc arm _)) fun _ =>
      hc.bind (hc.ofExcept _) fun _ => hc.pure _) ?_
  rintro v ⟨x, s⟩ ⟨y, _⟩ hlater ⟨hxy, rfl⟩
  have htest : D v t t' := h.later htest hlater
  have hsize := h.size_eq (h.snoc hxy (.branch .always 0))
  refine c.bind (Comparison.same (Branch.forward_congr hsize span)) (fun _ =>
    hc.bind (hc.map (lowerStmt_composed hc arm _)) fun _ => hc.bind (hc.ofExcept _) fun _ =>
      hc.pure _) ?_
  rintro v skip _ hlater rfl
  have hfront := h.join (h.later htest hlater) (.branch .ifFalse skip) (h.later hxy hlater)
  refine c.bind (marked_compares h hef arm (harm s v)) (fun _ =>
    hc.bind (hc.ofExcept _) fun _ => hc.pure _) ?_
  rintro v ⟨x', s'⟩ ⟨y', _⟩ hlater ⟨hxy', rfl⟩
  have hfront := h.later hfront hlater
  refine c.bind (Comparison.same (Branch.forward_congr (h.size_eq hxy') span)) (fun _ =>
    hc.pure _) ?_
  rintro v skipArm _ hlater rfl
  exact c.pure ⟨h.join (h.later hfront hlater) _ (h.later hxy' hlater), rfl⟩

theorem while_compares (scopes : Scopes) (w : c.World) (test : Expr) :
    c.Rel w (lowerStmt e scopes (.while_ test body)) (lowerStmt f scopes (.while_ test body))
      (Comparison.Agrees D) := by
  have hc := c.composes
  simp only [lowerStmt]
  refine c.bind (lowered_compares h hef scopes test w) (fun _ =>
    hc.bind (hc.map (lowerStmt_composed hc body _)) fun _ => hc.bind (hc.ofExcept _) fun _ =>
      hc.pure _) fun v t t' _ htest => ?_
  refine c.bind (marked_compares h hef body (hbody scopes v)) (fun _ =>
    hc.bind (hc.ofExcept _) fun _ => hc.pure _) ?_
  rintro v ⟨x, s⟩ ⟨y, _⟩ hlater ⟨hxy, rfl⟩
  have hloop := loopCode_ends h (h.later htest hlater) hxy test.span
  exact c.bind (Comparison.ended hloop) (fun _ => hc.pure _) fun _ _ _ _ hcode =>
    c.pure ⟨hcode, rfl⟩

theorem doWhile_compares (scopes : Scopes) (w : c.World) (test : Expr) :
    c.Rel w (lowerStmt e scopes (.doWhile body test)) (lowerStmt f scopes (.doWhile body test))
      (Comparison.Agrees D) := by
  have hc := c.composes
  simp only [lowerStmt]
  refine c.bind (marked_compares h hef body (hbody scopes w)) (fun _ =>
    hc.bind (lower_composed hc _ test) fun _ => hc.bind (hc.ofExcept _) fun _ => hc.pure _) ?_
  rintro v ⟨x, s⟩ ⟨y, _⟩ - ⟨hxy, rfl⟩
  refine c.bind (lowered_compares h hef s test v) (fun _ =>
    hc.bind (hc.ofExcept _) fun _ => hc.pure _) fun v t t' hlater htest => ?_
  have hcode := h.append (h.later hxy hlater) htest
  refine c.bind (Comparison.same (Branch.backward_congr (h.size_eq hcode) test.span))
    (fun _ => hc.pure _) ?_
  rintro v back _ hlater rfl
  exact c.pure ⟨h.snoc (h.later hcode hlater) _, rfl⟩

theorem foreach_compares (scopes : Scopes) (w : c.World) (element : Token) (collection : Expr) :
    c.Rel w (lowerStmt e scopes (.foreach element collection body))
      (lowerStmt f scopes (.foreach element collection body)) (Comparison.Agrees D) := by
  have hc := c.composes
  simp only [lowerStmt]
  refine c.bind (lowered_compares h hef _ collection w) ?_ fun v items items' _ hitems => ?_
  · intro _
    split
    · exact hc.throw _
    · split
      · exact hc.throw _
      · exact hc.bind (hc.map (lowerStmt_composed hc body _)) fun _ =>
          hc.bind (hc.ofExcept _) fun _ => hc.pure _
  split
  · exact c.throw
  split
  · exact c.throw
  refine c.bind (marked_compares h hef body (hbody _ v)) (fun _ =>
    hc.bind (hc.ofExcept _) fun _ => hc.pure _) ?_
  rintro v ⟨x, s⟩ ⟨y, _⟩ hlater ⟨hxy, rfl⟩
  have hitems : D v items items' := h.later hitems hlater
  refine c.bind (Comparison.ended
    (loopCode_ends h (h.plain _) (h.append hxy (h.plain _)) _)) (fun _ => hc.pure _)
    fun v loop loop' hlater hloop => ?_
  have hitems : D v items items' := h.later hitems hlater
  exact c.pure ⟨h.append (h.append (h.append (h.plain _) hitems) (h.plain _)) hloop, rfl⟩

end

mutual

theorem lowerStmt_compares : (s : Stmt) → (scopes : Scopes) → (w : c.World) →
    c.Rel w (lowerStmt e scopes s) (lowerStmt f scopes s) (Comparison.Agrees D)
  | .block ⟨body, _⟩, scopes, w => by
    simp only [lowerStmt]
    refine c.bind (lowerStmts_compares body _ w h.nil) (fun _ => c.composes.pure _) ?_
    rintro v ⟨x, s⟩ ⟨y, _⟩ - ⟨hxy, rfl⟩
    exact c.pure ⟨hxy, rfl⟩
  | .expr x, scopes, w => by
    simp only [lowerStmt]
    exact c.bind (lowered_compares h hef scopes x w) (fun _ => c.composes.pure _)
      fun _ _ _ _ hxy => c.pure ⟨h.snoc hxy _, rfl⟩
  | .var name init, scopes, w => by
    simp only [lowerStmt]
    exact lowerVar_compares h hef scopes name init w
  | .assign target value, scopes, w => by
    simp only [lowerStmt]
    exact c.bind (lowerAssign_compares h hef scopes target value w) (fun _ => c.composes.pure _)
      fun _ _ _ _ hxy => c.pure ⟨hxy, rfl⟩
  | .return_ none _, scopes, w => by
    simp only [lowerStmt]
    exact c.pure ⟨h.plain _, rfl⟩
  | .return_ (some x) _, scopes, w => by
    simp only [lowerStmt]
    exact c.bind (lowered_compares h hef scopes x w) (fun _ => c.composes.pure _)
      fun _ _ _ _ hxy => c.pure ⟨h.snoc hxy _, rfl⟩
  | .if_ none body _ _, scopes, w => by
    simp only [lowerStmt]
    exact marked_compares h hef body (lowerStmt_compares body scopes w)
  | .if_ (some test) body none span, scopes, w =>
    if_compares h hef (lowerStmt_compares body) scopes w test span
  | .if_ (some test) body (some arm) span, scopes, w =>
    ifElse_compares h hef (lowerStmt_compares body) (lowerStmt_compares arm) scopes w test span
  | .while_ test body, scopes, w => while_compares h hef (lowerStmt_compares body) scopes w test
  | .doWhile body test, scopes, w => doWhile_compares h hef (lowerStmt_compares body) scopes w test
  | .foreach element collection body, scopes, w =>
    foreach_compares h hef (lowerStmt_compares body) scopes w element collection
  | .classDecl _, _, _ | .property _, _, _ | .subroutine _, _, _ | .global _, _, _ => by
    simp only [lowerStmt]
    exact c.throw

theorem lowerStmts_compares : (ss : List Stmt) → (scopes : Scopes) → (w : c.World) →
    {x y : Code} → D w x.reverse y.reverse →
      c.Rel w (lowerStmts e x scopes ss) (lowerStmts f y scopes ss) (Comparison.Agrees D)
  | [], scopes, w, x, y, hxy => by
    simp only [lowerStmts]
    exact c.pure ⟨hxy, rfl⟩
  | s :: ss, scopes, w, x, y, hxy => by
    simp only [lowerStmts]
    refine c.bind (marked_compares h hef s (lowerStmt_compares s scopes w))
      (fun _ => lowerStmts_composed c.composes ss _ _) ?_
    rintro v ⟨x', t⟩ ⟨y', _⟩ hlater ⟨hxy', rfl⟩
    refine lowerStmts_compares ss t v ?_
    rw [List.reverse_append, List.reverse_append, List.reverse_reverse, List.reverse_reverse]
    exact h.append (h.later hxy hlater) hxy'

end

/-- A body comes to codes that are as `D` says. -/
theorem lowerSubroutine_compares (s : Subroutine) (w : c.World) :
    c.Rel w (lowerSubroutine e s) (lowerSubroutine f s) D := by
  have howner : e.owner.isSome = f.owner.isSome := by
    have howner := hef.owner
    generalize e.owner = a, f.owner = b at howner
    cases howner <;> rfl
  have hc := c.composes
  unfold lowerSubroutine
  rw [howner]
  refine c.bind (Comparison.same rfl) (fun _ =>
    hc.bind (lowerStmts_composed hc _ [] _) fun _ => hc.ofExcept _) ?_
  rintro v draft _ - rfl
  refine c.bind (lowerStmts_compares h hef _ _ v h.nil) (fun _ => hc.ofExcept _) ?_
  rintro v ⟨x, s'⟩ ⟨y, _⟩ - ⟨hxy, rfl⟩
  exact Comparison.ended (finish_ends h hxy draft s' _ _)

end

end Lss
