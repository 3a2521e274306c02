import Lss.Proofs.Interned

/-!
# What is said of lowering step by step

A relation between computations and those of lowering that holds of the steps, and lasts when they
follow one another, holds of all that lowering does. Only declarations find that a name is taken.
-/
namespace Lss

open Lower

/-! Steps that declare nothing. -/

namespace Lower

variable {α β : Type}

structure Neutral (f : Lower α) : Prop where
  interning : Interning f
  errors : ∀ p e q, f.run.run p = (.error e, q) → e.Neutral

theorem Neutral.pure (a : α) : Neutral (pure a : Lower α) := ⟨.pure a, nofun⟩

theorem Neutral.throw {e : CompileError} (h : e.Neutral) : Neutral (throw e : Lower α) := by
  refine ⟨.throw e, fun p e' q hrun => ?_⟩
  cases hrun
  exact h

theorem Neutral.bind {f : Lower α} {g : α → Lower β} (hf : f.Neutral) (hg : ∀ a, (g a).Neutral) :
    (f >>= g).Neutral := by
  refine ⟨hf.interning.bind fun a => (hg a).interning, fun p e q hrun => ?_⟩
  rw [run_bind] at hrun
  split at hrun
  · next a r hr => exact (hg a).errors r e q hrun
  · next e' r hr =>
    cases hrun
    exact hf.errors p e q hr

theorem Neutral.ofExcept {r : Except CompileError α} (h : ∀ e, r = .error e → e.Neutral) :
    (ofExcept r).Neutral := by
  cases r with
  | ok a => exact .pure a
  | error e => exact .throw (h e rfl)

theorem neutral_symbol (name : String) : (symbol name).Neutral := by
  refine ⟨.symbol name, fun p e q hrun => ?_⟩
  have hrun : symbol name p = (.error e, q) := hrun
  simp only [symbol] at hrun
  split at hrun
  · cases hrun
  · cases hrun
    trivial

theorem neutral_string (value : String) : (string value).Neutral := by
  refine ⟨.string value, fun p e q hrun => ?_⟩
  have hrun : string value p = (.error e, q) := hrun
  simp only [string] at hrun
  split at hrun
  · cases hrun
  · cases hrun
    trivial

theorem neutral_warn (d : Diagnostic) : (warn d).Neutral := by
  refine ⟨.warn d, fun p e q hrun => ?_⟩
  cases hrun

end Lower

theorem CompileError.eq_of_moves {e e' : CompileError} (h : e.Moves .refl e') :
    e.Neutral ∧ e = e' := by
  cases h with
  | placed h => exact ⟨h, e.moved_refl.symm⟩
  | malformed => exact ⟨trivial, rfl⟩

theorem neutral_steps : Steps .refl fun f g => f.Neutral ∧ f = g where
  pure a := ⟨.pure a, rfl⟩
  throw h := by
    obtain ⟨he, rfl⟩ := CompileError.eq_of_moves h
    exact ⟨.throw he, rfl⟩
  bind hf hg := ⟨.bind hf.1 fun a => (hg a).1, by rw [hf.2, funext fun a => (hg a).2]⟩
  symbol name := ⟨neutral_symbol name, rfl⟩
  string value := ⟨neutral_string value, rfl⟩
  warn _ _ := ⟨neutral_warn _, rfl⟩

theorem readGlobal_neutral {env : Env} (t : Token) : (readGlobal env t).Neutral :=
  (readGlobal_moved neutral_steps t).1

section

variable {m : Type → Type} [Monad m] [MonadLiftT Lower m] [MonadExcept CompileError m]

/-- A relation to computations of lowering that neutral steps are in, and that lasts when they
follow one another. -/
structure Mirrors (Q : {α : Type} → m α → Lower α → Prop) : Prop where
  pure : ∀ {α : Type} (a : α), Q (pure a) (pure a)
  lift : ∀ {α : Type} {f : Lower α}, f.Neutral → Q (liftM f) (liftM f)
  throw : ∀ {α : Type} {e : CompileError}, e.Neutral →
    Q (MonadExcept.throw e : m α) (MonadExcept.throw e)
  throw_bind : ∀ {α β : Type} {e : CompileError} {y : α → m β} {g : α → Lower β}, e.Neutral →
    Q (MonadExcept.throw e >>= y) (MonadExcept.throw e >>= g)
  bind : ∀ {α β : Type} {x : m α} {f : Lower α} {y : α → m β} {g : α → Lower β}, Q x f →
    (∀ a, Q (y a) (g a)) → Q (x >>= y) (f >>= g)

variable {Q : {α : Type} → m α → Lower α → Prop} (h : Mirrors Q) {env : Env}
  {r : Token → m Code} {r' : Token → Lower Code} {a : Token → m Slot} {a' : Token → Lower Slot}
include h

theorem Mirrors.walks :
    Walks (m := m) (n := Lower) .refl (fun f g => f.Neutral ∧ f = g) Q where
  steps := neutral_steps
  pure := h.pure
  lift := by
    rintro α f _ ⟨hf, rfl⟩
    exact h.lift hf
  throw hmoves := by
    obtain ⟨he, rfl⟩ := CompileError.eq_of_moves hmoves
    exact h.throw he
  throw_bind hmoves := by
    obtain ⟨he, rfl⟩ := CompileError.eq_of_moves hmoves
    exact h.throw_bind he
  bind := h.bind

theorem exprOver_mirrors (hread : ∀ t, Q (r t) (r' t)) (e : Expr) :
    Q (exprOver env r e) (exprOver env r' e) := by
  have hexpr : Q (exprOver env r e) (exprOver env r' (e.moved .refl)) :=
    exprOver_moved h.walks hread e
  rwa [Expr.moved_refl] at hexpr

theorem assignOver_mirrors (hread : ∀ t, Q (r t) (r' t)) (hassigned : ∀ t, Q (a t) (a' t))
    (target value : Expr) :
    Q (assignOver env r a target value) (assignOver env r' a' target value) := by
  have hassign : Q (assignOver env r a target value)
      (assignOver env r' a' (target.moved .refl) (value.moved .refl)) :=
    assignOver_moved h.walks hread hassigned target value
  rwa [Expr.moved_refl, Expr.moved_refl] at hassign

end

/-! Expressions declare nothing. -/

section

variable {env : Env} {read : Token → Lower Code} {S : Scopes}

theorem neutral_mirrors : Mirrors (m := Lower) (fun _ f => f.Neutral) where
  pure a := .pure a
  lift hf := hf
  throw he := .throw he
  throw_bind he := .throw he
  bind hf hg := .bind hf hg

theorem lowerExpr_neutral (hread : ∀ t, (read t).Neutral) (e : Expr) :
    (lowerExpr env read e).Neutral := by
  rw [← exprOver_lower]
  exact exprOver_mirrors neutral_mirrors (r := read) hread e

theorem readFrom_neutral (frame : Nat) (t : Token) : (readFrom env S frame t).Neutral := by
  induction frame using Nat.strongRecOn generalizing t with
  | ind frame ih =>
    unfold readFrom
    split
    · exact .bind (readGlobal_neutral t) fun _ => .pure _
    · exact .pure _
    · next outer _ =>
      split
      · next hlt => exact .bind (lowerExpr_neutral (ih outer hlt) _) fun _ => .pure _
      · exact .throw trivial

theorem readName_neutral (t : Token) : (readName env S t).Neutral := by
  unfold readName
  split
  · exact readFrom_neutral _ t
  · exact .bind (readGlobal_neutral t) fun _ => .pure _

theorem assignedSlot_neutral (t : Token) : (assignedSlot env S t).Neutral := by
  unfold assignedSlot
  split
  · exact .pure _
  · exact .throw trivial
  · exact readGlobal_neutral t

theorem lower_neutral (S : Scopes) (e : Expr) : (lower env S e).Neutral :=
  lowerExpr_neutral readName_neutral e

theorem lowerAssign_neutral (S : Scopes) (target value : Expr) :
    (lowerAssign env S target value).Neutral := by
  rw [← assignOver_lower]
  exact assignOver_mirrors neutral_mirrors (r := readName env S) (a := assignedSlot env S)
    readName_neutral assignedSlot_neutral target value

end

/-! Statements. -/

section

variable {m : Type → Type} [Monad m] [LawfulMonad m] [MonadLiftT Lower m]
  [MonadExcept CompileError m]

structure Tracks (K : Keeper m) (env : Env)
    (R : {α : Type} → m α → (Scopes → Lower (α × Scopes)) → Prop) : Prop where
  pure : ∀ {α : Type} (a : α), R (pure a) fun S => pure (a, S)
  lift : ∀ {α : Type} {f : Lower α}, f.Neutral → R (liftM f) fun S => (·, S) <$> f
  throw : ∀ {α : Type} {e : CompileError}, e.Neutral →
    R (MonadExcept.throw e : m α) fun _ => MonadExcept.throw e
  bind : ∀ {α β : Type} {x : m α} {f : Scopes → Lower (α × Scopes)} {y : α → m β}
    {g : α → Scopes → Lower (β × Scopes)}, R x f → (∀ a, R (y a) (g a)) →
    R (x >>= y) fun S => f S >>= fun r => g r.1 r.2
  expr : ∀ e, R (exprOver env K.read e) fun S => (·, S) <$> lower env S e
  assign : ∀ target value, R (assignOver env K.read K.assigned target value) fun S =>
    (·, S) <$> lowerAssign env S target value
  declare : ∀ t, R (K.declare t) fun S =>
    match S.declare t.text with
    | some r => Pure.pure r
    | none => MonadExcept.throw (.duplicateVariable t.text t.span)
  hidden : ∀ purpose, R (K.hidden purpose) fun S => Pure.pure (S.declareHidden purpose)
  element : ∀ element collection index, R (K.element element collection index) fun S =>
    match S.enclosing with
    | none => MonadExcept.throw (.internal "foreach outside a subroutine frame")
    | some frame =>
      match S.bind element.text (.element collection index frame) with
      | none => MonadExcept.throw (.duplicateVariable element.text element.span)
      | some U => Pure.pure ((), U)
  frame : ∀ {α : Type} {x : m α} {f : Scopes → Lower (α × Scopes)}, R x f →
    R (K.frame x) fun S => f S.enter >>= fun r => Pure.pure (r.1, r.2.exit)
  slots : R K.slots fun S => Pure.pure (S.slotCount, S)

variable {K : Keeper m} {env : Env} {R : {α : Type} → m α → (Scopes → Lower (α × Scopes)) → Prop}

theorem Tracks.map (h : Tracks K env R) {α β : Type} {x : m α} {f : Scopes → Lower (α × Scopes)}
    {g : α → β} (hx : R x f) : R (g <$> x) fun S => (fun r => (g r.1, r.2)) <$> f S := by
  simp only [map_eq_pure_bind]
  exact h.bind hx fun a => h.pure (g a)

theorem marked_tracks (h : Tracks K env R) {s : Stmt}
    (hs : R (stmtOver K env s) fun S => lowerStmt env S s) :
    R (s.withMark env <$> stmtOver K env s) fun S => marked env s <$> lowerStmt env S s :=
  h.map hs

omit [Monad m] [LawfulMonad m] [MonadLiftT Lower m] [MonadExcept CompileError m] in
theorem Tracks.congr {α : Type} {x : m α} {f g : Scopes → Lower (α × Scopes)} (hx : R x f)
    (hfg : ∀ S, f S = g S) : R x g := by
  rwa [← funext hfg]

theorem Branch.neutral_of_distance {d : Int16 → Int16} {n : Nat} {span : Span} {e : CompileError}
    (h : (match distance? n with
      | some i => .ok (d i)
      | none => .error (.branchTooFar span)) = (.error e : Except CompileError Int16)) :
    e.Neutral := by
  split at h
  · cases h
  · cases h
    trivial

theorem loopCode_neutral {test body : Code} {span : Span} {e : CompileError}
    (h : loopCode test body span = .error e) : e.Neutral := by
  unfold loopCode at h
  cases hback : Branch.backward (test ++ .branch .ifFalse 0 :: body) span with
  | error e' =>
    rw [hback] at h
    cases h
    exact Branch.neutral_of_distance hback
  | ok back =>
    rw [hback] at h
    cases hout : Branch.forward (body ++ [Instruction.branch .always back]) span with
    | error e' =>
      simp only [bind, Except.bind, hout] at h
      cases h
      exact Branch.neutral_of_distance hout
    | ok out =>
      simp only [bind, Except.bind, hout] at h
      cases h

mutual

theorem stmtOver_tracks (h : Tracks K env R) : (s : Stmt) →
    R (stmtOver K env s) fun S => lowerStmt env S s
  | .block ⟨body, _⟩ => by
    simp only [stmtOver, lowerStmt]
    exact h.frame (stmtsOver_tracks h body [])
  | .expr e => by
    simp only [stmtOver, lowerStmt]
    refine Tracks.congr (h.bind (h.expr e) fun _ => h.pure _) fun S => ?_
    simp only [bind_map_left]
  | .var name init => by
    have hdeclare (value : Code) (S : Scopes) :
        (match S.declare name.text with
          | some r => Pure.pure r
          | none => MonadExcept.throw (.duplicateVariable name.text name.span)) >>= (fun r =>
            (Pure.pure (value ++ [Instruction.setVariable (.ofLocal r.1)], r.2) : Lower Lowered)) =
        match S.declare name.text with
          | some (slot, scopes) =>
            Pure.pure (value ++ [Instruction.setVariable (.ofLocal slot)], scopes)
          | none => MonadExcept.throw (.duplicateVariable name.text name.span) := by
      cases S.declare name.text with
      | none => rfl
      | some r => exact pure_bind _ _
    cases init with
    | none =>
      simp only [stmtOver, lowerStmt, lowerVar, pure_bind]
      exact Tracks.congr (h.bind (h.declare name) fun _ => h.pure _) fun S => hdeclare _ S
    | some e =>
      simp only [stmtOver, lowerStmt, lowerVar]
      refine Tracks.congr (h.bind (h.expr e) fun _ => h.bind (h.declare name) fun _ => h.pure _)
        fun S => ?_
      simp only [bind_map_left]
      exact bind_congr fun value => hdeclare value S
  | .assign target value => by
    simp only [stmtOver, lowerStmt]
    exact Tracks.congr (h.assign target value) fun S => map_eq_pure_bind _ _
  | .return_ none _ => by
    simp only [stmtOver, lowerStmt]
    exact h.pure _
  | .return_ (some e) _ => by
    simp only [stmtOver, lowerStmt]
    refine Tracks.congr (h.bind (h.expr e) fun _ => h.pure _) fun S => ?_
    simp only [bind_map_left]
  | .if_ none body _ _ => by
    simp only [stmtOver, lowerStmt]
    exact marked_tracks h (stmtOver_tracks h body)
  | .if_ (some c) body none span => by
    simp only [stmtOver, lowerStmt]
    refine Tracks.congr (h.bind (h.expr c) fun _ =>
      h.bind (marked_tracks h (stmtOver_tracks h body)) fun _ =>
        h.bind (h.lift (.ofExcept fun _ => Branch.neutral_of_distance)) fun _ => h.pure _)
      fun S => ?_
    simp only [bind_map_left]
  | .if_ (some c) body (some arm) span => by
    simp only [stmtOver, lowerStmt]
    refine Tracks.congr (h.bind (h.expr c) fun _ =>
      h.bind (marked_tracks h (stmtOver_tracks h body)) fun _ =>
        h.bind (h.lift (.ofExcept fun _ => Branch.neutral_of_distance)) fun _ =>
          h.bind (marked_tracks h (stmtOver_tracks h arm)) fun _ =>
            h.bind (h.lift (.ofExcept fun _ => Branch.neutral_of_distance)) fun _ => h.pure _)
      fun S => ?_
    simp only [bind_map_left]
  | .while_ c body => by
    simp only [stmtOver, lowerStmt]
    refine Tracks.congr (h.bind (h.expr c) fun _ =>
      h.bind (marked_tracks h (stmtOver_tracks h body)) fun _ =>
        h.lift (.ofExcept fun _ => loopCode_neutral)) fun S => ?_
    simp only [map_eq_pure_bind, bind_assoc, pure_bind]
  | .doWhile body c => by
    simp only [stmtOver, lowerStmt]
    refine Tracks.congr (h.bind (marked_tracks h (stmtOver_tracks h body)) fun _ =>
      h.bind (h.expr c) fun _ =>
        h.bind (h.lift (.ofExcept fun _ => Branch.neutral_of_distance)) fun _ => h.pure _)
      fun S => ?_
    simp only [bind_map_left]
  | .foreach element collection body => by
    simp only [stmtOver, lowerStmt]
    refine Tracks.congr (h.frame (h.bind (h.hidden "index") fun _ =>
      h.bind (h.hidden "max") fun _ => h.bind (h.expr collection) fun _ =>
        h.bind (h.element _ _ _) fun _ => h.bind (marked_tracks h (stmtOver_tracks h body)) fun _ =>
          h.bind (h.lift (.ofExcept fun _ => loopCode_neutral)) fun _ => h.pure _)) fun S => ?_
    simp only [pure_bind, bind_map_left, bind_assoc]
    refine bind_congr fun items => ?_
    generalize ((S.enter.declareHidden "index").2.declareHidden "max").2 = inside
    rcases inside.enclosing with _ | frame
    · rfl
    dsimp only
    generalize inside.bind element.text _ = bound
    rcases bound with _ | inner
    · rfl
    · exact (pure_bind _ _).symm
  | .classDecl _ | .property _ | .subroutine _ | .global _ => by
    simp only [stmtOver, lowerStmt]
    exact h.throw trivial

theorem stmtsOver_tracks (h : Tracks K env R) : (ss : List Stmt) → (acc : Code) →
    R (stmtsOver K env acc ss) fun S => lowerStmts env acc S ss
  | [], acc => by
    simp only [stmtsOver, lowerStmts]
    exact h.pure _
  | s :: ss, acc => by
    simp only [stmtsOver, lowerStmts]
    exact h.bind (marked_tracks h (stmtOver_tracks h s)) fun _ => stmtsOver_tracks h ss _

end

/-! Bodies. -/

omit [LawfulMonad m] in
theorem declareAll_tracks (h : Tracks K env R) : (ps : List Token) →
    R (K.declareAll ps) fun S => ((), ·) <$> Lower.ofExcept (Draft.declareAll S ps)
  | [] => h.pure ()
  | p :: ps => by
    simp only [Keeper.declareAll]
    refine Tracks.congr (h.bind (h.declare p) fun _ => declareAll_tracks h ps) fun S => ?_
    simp only [Draft.declareAll]
    cases S.declare p.text with
    | none => rfl
    | some r => exact pure_bind _ _

def Scopes.withParameters (S : Scopes) (ps : List Token) (isMethod : Bool) :
    Lower (Unit × Scopes) :=
  let seeded := (S.declareHiddenMany "this" isMethod.toNat).2
  match ps with
  | [] => pure ((), seeded)
  | p :: _ =>
    if 255 < ps.length then throw (.tooManyArguments p.span)
    else ((), ·) <$> Lower.ofExcept (Draft.declareAll seeded ps)

theorem seed_tracks (h : Tracks K env R) (isMethod : Bool) :
    R (K.seed isMethod) fun S => pure ((), (S.declareHiddenMany "this" isMethod.toNat).2) := by
  cases isMethod with
  | false => exact h.pure ()
  | true => exact h.map (h.hidden "this")

theorem start_tracks (h : Tracks K env R) (ps : List Token) (isMethod : Bool) :
    R (K.start ps isMethod) fun S => S.withParameters ps isMethod := by
  cases ps with
  | nil => exact seed_tracks h isMethod
  | cons p ps =>
    simp only [Keeper.start, Scopes.withParameters]
    split
    · exact h.throw trivial
    · exact h.bind (seed_tracks h isMethod) fun _ => declareAll_tracks h _

theorem run_start (env : Env) (s : Subroutine) :
    Lower.ofExcept (Draft.start s.name.text s.parameters env.owner.isSome) =
      (fun r => { name := s.name.text, parameterCount := UInt8.ofNat s.parameters.length,
                  isMethod := env.owner.isSome, scopes := r.2 }) <$>
        Scopes.start.withParameters s.parameters env.owner.isSome := by
  unfold Draft.start Scopes.withParameters
  split
  · next h =>
    rw [h]
    rfl
  · next h =>
    simp only [h]
    split
    · rfl
    · change _ = _ <$> _ <$> Lower.ofExcept (Draft.declareAll (Draft.start.seed _) _)
      cases Draft.declareAll (Draft.start.seed env.owner.isSome) _ with
      | ok scopes => rfl
      | error e => rfl

theorem Draft.finish_neutral {d : Draft} {b : Bool} {span : Span} {e : CompileError}
    (h : d.finish b span = .error e) : e.Neutral := by
  unfold Draft.finish at h
  split at h
  · cases h
    trivial
  · cases h

/-- Lowering a body comes from what it does in the frame that it starts with. -/
theorem subroutineOver_tracks (h : Tracks K env R) (s : Subroutine) :
    ∃ f, R (subroutineOver K env s) f ∧ lowerSubroutine env s = (·.1) <$> f .start := by
  refine ⟨_, h.bind (start_tracks h s.parameters env.owner.isSome) fun _ =>
    h.bind (stmtsOver_tracks h s.body.statements []) fun _ => h.bind h.slots fun _ =>
      h.lift (.ofExcept fun _ => Draft.finish_neutral), ?_⟩
  unfold lowerSubroutine
  rw [run_start, bind_map_left, map_bind]
  refine bind_congr fun r => ?_
  rw [map_bind]
  refine bind_congr fun r' => ?_
  simp only [pure_bind, Functor.map_map]
  exact (id_map _).symm

end

end Lss
