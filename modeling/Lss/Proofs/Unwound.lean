import Lss.Proofs.Hygienic
import Lss.Proofs.Mirrored

/-!
# Frames after an error

The chain of frames as one state that every step changes: elements of loops are read by going to the
frame of their collection and back, and a frame that was opened is left again, an error or not.
Lowering comes to the same code, errors and tables that way, and whatever it comes to, the current
frame is the one from before.
-/
namespace Lss

open Lower

/-- Computations that change a chain of frames and fill a pool. What was done before an error
stays. -/
abbrev Framing := ExceptT CompileError (StateM (Scopes × Pool))

namespace Scopes

/-- `U` has the frames of `S`, inside the same ones, and more; the current frame is the same. -/
structure Returns (S U : Scopes) : Prop where
  current : U.current = S.current
  size : S.frames.size ≤ U.frames.size
  parents : ∀ j < S.frames.size, U.frames[j]?.map (·.parent) = S.frames[j]?.map (·.parent)

variable {S T U : Scopes}

theorem Returns.refl (S : Scopes) : Returns S S := ⟨rfl, Nat.le_refl _, fun _ _ => rfl⟩

theorem Returns.trans (h : Returns S T) (h' : Returns T U) : Returns S U where
  current := h'.current.trans h.current
  size := Nat.le_trans h.size h'.size
  parents j hj := (h'.parents j (Nat.lt_of_lt_of_le hj h.size)).trans (h.parents j hj)

/-- Counting slots and hidden names opens no frame. -/
theorem Returns.count (S : Scopes) (n m : Nat) :
    Returns S { S with slotCount := n, hidden := m } :=
  ⟨rfl, Nat.le_refl _, fun _ _ => rfl⟩

theorem size_insert (S : Scopes) (name : String) (v : Variable) :
    (S.insert name v).frames.size = S.frames.size := by
  unfold insert
  split
  · rfl
  · simp

theorem Returns.insert (S : Scopes) (name : String) (v : Variable) :
    Returns S (S.insert name v) := by
  refine ⟨current_insert S name v, Nat.le_of_eq (size_insert S name v).symm, fun j _ => ?_⟩
  cases hk : S.current with
  | none => rw [Scopes.insert, hk]
  | some k =>
    rw [frames_insert hk, Option.map_map]
    congr 1
    funext f
    simp only [Function.comp_apply]
    split <;> rfl

/-- What was left of a frame that was opened is left to the frame around it. -/
theorem Returns.exit (h : Returns S.enter U) : Returns S U.exit := by
  have hsize : S.enter.frames.size = S.frames.size + 1 := by simp [enter]
  have hle := h.size
  rw [hsize] at hle
  refine ⟨?_, Nat.le_of_succ_le hle, fun j hj => ?_⟩
  · have hparent := h.parents S.frames.size (by omega)
    rw [frames_enter_self, Option.map_some] at hparent
    obtain ⟨f, hf, hparent⟩ := Option.map_eq_some_iff.mp hparent
    change U.enclosing = S.current
    rw [enclosing, frame?, h.current, Scopes.enter, Option.bind_some, hf, Option.bind_some, hparent]
  · have hparent := h.parents j (by omega)
    rwa [frames_enter S hj] at hparent

end Scopes

namespace Framing

variable {α β : Type}

instance : MonadLift Lower Framing where
  monadLift f := ExceptT.mk fun s => let r := f.run.run s.2; (r.1, s.1, r.2)

def scopes : Framing Scopes := ExceptT.mk fun s => (.ok s.1, s)

def put (U : Scopes) : Framing Unit := ExceptT.mk fun s => (.ok (), U, s.2)

/-- A computation from other frames, and what is made of the frames at its end, an error or not. -/
def between (before : Scopes → Scopes) (after : Scopes → Scopes → Scopes) (x : Framing α) :
    Framing α :=
  ExceptT.mk fun s => let r := x.run.run (before s.1, s.2); (r.1, after s.1 r.2.1, r.2.2)

def within (frame : Nat) (x : Framing α) : Framing α :=
  between (·.goTo (some frame)) (fun S U => U.goTo S.current) x

def readGlobalSlot (env : Env) (t : Token) : Framing Code := do
  return [.getVariable (← liftM (readGlobal env t))]

def readFrom (env : Env) (frame : Nat) (t : Token) : Framing Code := do
  match (← scopes).resolve t.text with
  | none => readGlobalSlot env t
  | some (.slot i) => return [.getVariable (.ofLocal i)]
  | some (.element collection index outer) =>
    if _h : outer < frame then do
      let code ← within outer (exprOver env (fun t => readFrom env outer t) collection)
      return code ++ [Instruction.getVariable (.ofLocal index), .getElement]
    else throw (.internal "loop element outside its loop")
termination_by frame

def read (env : Env) (t : Token) : Framing Code := do
  match (← scopes).current with
  | some frame => readFrom env frame t
  | none => readGlobalSlot env t

def assigned (env : Env) (t : Token) : Framing Slot := do
  match (← scopes).resolve t.text with
  | some (.slot i) => return .ofLocal i
  | some (.element _ _ _) => throw (.notAssignable t.span)
  | none => liftM (readGlobal env t)

def declare (t : Token) : Framing UInt16 := do
  match (← scopes).declare t.text with
  | some (slot, U) =>
    put U
    return slot
  | none => throw (.duplicateVariable t.text t.span)

def hidden (purpose : String) : Framing UInt16 := do
  let (slot, U) := (← scopes).declareHidden purpose
  put U
  return slot

def element (name : Token) (collection : Expr) (index : UInt16) : Framing Unit := do
  match (← scopes).enclosing with
  | none => throw (.internal "foreach outside a subroutine frame")
  | some frame =>
    match (← scopes).bind name.text (.element collection index frame) with
    | none => throw (.duplicateVariable name.text name.span)
    | some U => put U

def keeper (env : Env) : Keeper Framing where
  read := read env
  assigned := assigned env
  declare := declare
  hidden := hidden
  element := element
  frame := between Scopes.enter fun _ U => U.exit
  slots := do return (← scopes).slotCount

theorem run_bind (x : Framing α) (y : α → Framing β) (s : Scopes × Pool) :
    (x >>= y).run.run s = match x.run.run s with
      | (.ok a, t) => (y a).run.run t
      | (.error e, t) => (.error e, t) := by
  simp only [ExceptT.run_bind, StateT.run_bind]
  rcases x.run.run s with ⟨a | e, t⟩ <;> rfl

theorem run_bind_ok {x : Framing α} {y : α → Framing β} {s t : Scopes × Pool} {b : β}
    (h : (x >>= y).run.run s = (.ok b, t)) :
    ∃ a u, x.run.run s = (.ok a, u) ∧ (y a).run.run u = (.ok b, t) := by
  rw [run_bind] at h
  split at h
  · next a u hu => exact ⟨a, u, hu, h⟩
  · cases h

/-! Reading. -/

/-- A computation that leaves the frames `S` as they are, and for the rest is one of lowering. -/
def Reads (S : Scopes) (x : Framing α) (f : Lower α) : Prop :=
  ∀ p, x.run.run (S, p) = ((f.run.run p).1, S, (f.run.run p).2)

theorem reads_mirrors (S : Scopes) : Mirrors (fun x f => Reads S x f) where
  pure _ _ := rfl
  lift _ _ := rfl
  throw _ _ := rfl
  throw_bind _ _ := rfl
  bind hx hy p := by
    rw [run_bind, Lower.run_bind, hx p]
    rcases hf : (_ : Lower _).run.run p with ⟨_ | a, q⟩
    · rfl
    · exact hy a q

theorem Reads.within {S : Scopes} {x : Framing α} {f : Lower α} {frame : Nat}
    (h : Reads (S.goTo (some frame)) x f) : Reads S (within frame x) f := by
  intro p
  change ((x.run.run (S.goTo (some frame), p)).1, _, (x.run.run (S.goTo (some frame), p)).2.2) = _
  rw [h p]
  rfl

theorem readGlobalSlot_reads (S : Scopes) (env : Env) (t : Token) :
    Reads S (readGlobalSlot env t) (do return [.getVariable (← readGlobal env t)]) :=
  (reads_mirrors S).bind ((reads_mirrors S).lift (readGlobal_neutral t)) fun _ =>
    (reads_mirrors S).pure _

variable {env : Env} {S T : Scopes}

/-- What a step does with the frames of the state. -/
theorem Reads.scopes_bind {y : Scopes → Framing α} {f : Lower α} (h : Reads S (y S) f) :
    Reads S (scopes >>= y) f := h

theorem exprOver_reads {read : Token → Framing Code} {read' : Token → Lower Code}
    (h : ∀ t, Reads S (read t) (read' t)) (e : Expr) :
    Reads S (exprOver env read e) (lowerExpr env read' e) := by
  rw [← exprOver_lower]
  exact exprOver_mirrors (reads_mirrors S) h e

/-- Names are read from the frame that a computation is in. -/
theorem readFrom_reads {frame : Nat} (hT : T.current = some frame) (hframes : T.frames = S.frames)
    (t : Token) : Reads T (readFrom env frame t) (Lss.readFrom env S frame t) := by
  -- the frame goes down with every loop that is left
  induction frame using Nat.strongRecOn generalizing T t with
  | ind frame ih =>
    have hresolve : T.resolve t.text = S.resolveFrom t.text frame := by
      rw [Scopes.resolve, hT, Option.bind_some]
      exact Scopes.resolveFrom_congr t.text fun j _ => by rw [hframes]
    rw [readFrom, Lss.readFrom]
    refine Reads.scopes_bind ?_
    rw [hresolve]
    rcases S.resolveFrom t.text frame with _ | i | ⟨collection, index, outer⟩
    · exact readGlobalSlot_reads T env t
    · exact (reads_mirrors T).pure _
    · dsimp only
      split
      · next hlt =>
        refine (reads_mirrors T).bind (Reads.within (exprOver_reads (fun t => ?_) collection))
          fun _ => (reads_mirrors T).pure _
        exact ih outer hlt (T := T.goTo (some outer)) rfl hframes t
      · exact (reads_mirrors T).throw trivial

theorem read_reads (S : Scopes) (t : Token) : Reads S (read env t) (readName env S t) := by
  refine Reads.scopes_bind ?_
  unfold readName
  cases hcurrent : S.current with
  | some frame => exact readFrom_reads hcurrent rfl t
  | none => exact readGlobalSlot_reads S env t

theorem assigned_reads (S : Scopes) (t : Token) :
    Reads S (assigned env t) (assignedSlot env S t) := by
  refine Reads.scopes_bind ?_
  unfold assignedSlot
  rcases S.resolve t.text with _ | i | _
  · exact (reads_mirrors S).lift (readGlobal_neutral t)
  · exact (reads_mirrors S).pure _
  · exact (reads_mirrors S).throw trivial

theorem expr_reads (S : Scopes) (e : Expr) :
    Reads S (exprOver env (read env) e) (lower env S e) :=
  exprOver_reads (read_reads S) e

theorem assign_reads (S : Scopes) (target value : Expr) :
    Reads S (assignOver env (read env) (assigned env) target value)
      (lowerAssign env S target value) := by
  rw [← assignOver_lower]
  exact assignOver_mirrors (reads_mirrors S) (read_reads S) (assigned_reads S) target value

/-! Statements. -/

/-- A computation that does what lowering does from the same frames, and comes to the same frames
unless there is an error. -/
def Runs (x : Framing α) (f : Scopes → Lower (α × Scopes)) : Prop :=
  ∀ S p, (f S).run.run p =
    ((x.run.run (S, p)).1.map (·, (x.run.run (S, p)).2.1), (x.run.run (S, p)).2.2)

theorem Reads.runs {x : Framing α} {f : Scopes → Lower α} (h : ∀ S, Reads S x (f S)) :
    Runs x fun S => (·, S) <$> f S := by
  intro S p
  rw [h S p]
  dsimp only
  rw [map_eq_pure_bind, Lower.run_bind]
  rcases (f S).run.run p with ⟨e | a, q⟩ <;> rfl

theorem run_declare (t : Token) (S : Scopes) (p : Pool) :
    (declare t).run.run (S, p) = match S.declare t.text with
      | some (slot, U) => (.ok slot, U, p)
      | none => (.error (.duplicateVariable t.text t.span), S, p) := by
  change ExceptT.run (match S.declare t.text with
    | some (slot, U) => (do put U; return slot)
    | none => throw (.duplicateVariable t.text t.span)) (S, p) = _
  cases S.declare t.text <;> rfl

theorem run_element (name : Token) (collection : Expr) (index : UInt16) (S : Scopes) (p : Pool) :
    (element name collection index).run.run (S, p) = match S.enclosing with
      | none => (.error (.internal "foreach outside a subroutine frame"), S, p)
      | some frame =>
        match S.bind name.text (.element collection index frame) with
        | none => (.error (.duplicateVariable name.text name.span), S, p)
        | some U => (.ok (), U, p) := by
  change ExceptT.run (match S.enclosing with
    | none => throw (.internal "foreach outside a subroutine frame")
    | some frame => scopes >>= fun T =>
      match T.bind name.text (.element collection index frame) with
      | none => throw (.duplicateVariable name.text name.span)
      | some U => put U) (S, p) = _
  cases S.enclosing with
  | none => rfl
  | some frame =>
    change ExceptT.run (match S.bind name.text (.element collection index frame) with
      | none => throw (.duplicateVariable name.text name.span)
      | some U => put U) (S, p) = _
    dsimp only
    cases S.bind name.text (.element collection index frame) <;> rfl

theorem run_frame (env : Env) (x : Framing α) (S : Scopes) (p : Pool) :
    ((keeper env).frame x).run.run (S, p) =
      ((x.run.run (S.enter, p)).1, (x.run.run (S.enter, p)).2.1.exit,
        (x.run.run (S.enter, p)).2.2) := rfl

theorem runs_tracks (env : Env) : Tracks (keeper env) env (fun x f => Runs x f) where
  pure _ _ _ := rfl
  lift hf := Reads.runs fun S => (reads_mirrors S).lift hf
  throw _ _ _ := rfl
  bind := by
    intro _ _ x f y g hx hy S p
    rw [Lower.run_bind, hx S p, run_bind]
    rcases x.run.run (S, p) with ⟨e | a, U, q⟩
    · rfl
    · exact hy a U q
  expr e := Reads.runs fun S => expr_reads S e
  assign target value := Reads.runs fun S => assign_reads S target value
  declare t S p := by
    dsimp only [keeper]
    rw [run_declare]
    cases S.declare t.text <;> rfl
  hidden _ _ _ := rfl
  element name collection index S p := by
    dsimp only [keeper]
    rw [run_element]
    cases S.enclosing with
    | none => rfl
    | some frame =>
      dsimp only
      cases S.bind name.text (.element collection index frame) <;> rfl
  frame := by
    intro _ x f hx S p
    rw [Lower.run_bind, hx S.enter p, run_frame]
    rcases x.run.run (S.enter, p) with ⟨e | a, U, q⟩ <;> rfl
  slots _ _ := rfl

/-! The way back. -/

/-- A computation that comes back to the current frame, whatever it comes to. -/
def Returns (x : Framing α) : Prop :=
  ∀ S p, Scopes.Returns S (x.run.run (S, p)).2.1

theorem Reads.returns {x : Framing α} {f : Scopes → Lower α} (h : ∀ S, Reads S x (f S)) :
    Returns x := by
  intro S p
  rw [h S p]
  exact .refl S

theorem Returns.bind {x : Framing α} {y : α → Framing β} (hx : Returns x)
    (hy : ∀ a, Returns (y a)) : Returns (x >>= y) := by
  intro S p
  have hx := hx S p
  rw [run_bind]
  rcases hrun : x.run.run (S, p) with ⟨e | a, U, q⟩ <;> rw [hrun] at hx
  · exact hx
  · exact hx.trans (hy a U q)

theorem Returns.frame (env : Env) {x : Framing α} (hx : Returns x) :
    Returns ((keeper env).frame x) :=
  fun S p => (hx S.enter p).exit

theorem returns_tracks (env : Env) : Tracks (keeper env) env (fun x _ => Returns x) where
  pure _ S _ := .refl S
  lift _ S _ := .refl S
  throw _ S _ := .refl S
  bind := Returns.bind
  expr e := Reads.returns fun S => expr_reads S e
  assign target value := Reads.returns fun S => assign_reads S target value
  declare t S p := by
    dsimp only [keeper]
    rw [run_declare]
    unfold Scopes.declare
    split
    · next hd =>
      split at hd
      · cases hd
      · cases hd
        exact (Scopes.Returns.count S (S.slotCount + 1) S.hidden).trans (.insert _ _ _)
    · exact .refl S
  hidden _ S _ := (Scopes.Returns.count S (S.slotCount + 1) (S.hidden + 1)).trans (.insert _ _ _)
  element name collection index S p := by
    dsimp only [keeper]
    rw [run_element]
    cases S.enclosing with
    | none => exact .refl S
    | some frame =>
      dsimp only
      unfold Scopes.bind
      split
      · exact .refl S
      · next hb =>
        split at hb
        · cases hb
        · cases hb
          exact .insert S name.text _
  frame := Returns.frame env
  slots S _ := .refl S

end Framing

end Lss
