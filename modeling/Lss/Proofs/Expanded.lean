import Lss.Proofs.Framed
import Lss.Proofs.Hygienic
import Lss.Proofs.Mirrored

/-!
# Elements of loops expand to an end

Whatever is done with a chain of frames, each lies in one before it, and elements of loops stand in
the frame right inside the one that the names of their collection are looked up from. So looking a
name up goes from frame to frame in one direction, and comes to an end.

To read an element of a loop is to read its collection, where the same name may stand for an
element of another loop, and so on. Here that is done without looking at where frames lie: it comes
to nothing when it takes more expansions than there are frames, or when a frame is missing, and all
chains of frames on the way are kept. It never comes to nothing: lowering gives the same code,
errors and tables, and in all chains that it goes through, frames nest.
-/
namespace Lss

/-! ## Frames nest -/

/-- Frame `j` lies in one before it, and so do the collections of the elements that it binds. -/
structure Frame.Nests (j : Nat) (f : Frame) : Prop where
  parent : ∀ p, f.parent = some p → p < j
  element : ∀ (name : String) collection index outer,
    f.bindings[name]? = some (.element collection index outer) → f.parent = some outer

theorem Frame.Nests.sited {j : Nat} {f : Frame} (h : f.Nests j) : f.Sited j :=
  ⟨h.parent, fun name collection index outer hname =>
    h.parent outer (h.element name collection index outer hname)⟩

namespace Scopes

structure Nested (s : Scopes) : Prop where
  current : ∀ k, s.current = some k → k < s.frames.size
  frames : ∀ (j : Nat) (f : Frame), s.frames[j]? = some f → f.Nests j

variable {s t : Scopes} {k : Nat} {name : String} {v : Variable}

theorem nested_empty : ({} : Scopes).Nested := by
  refine ⟨fun _ hk => ?_, fun _ _ hf => ?_⟩
  · cases hk
  · simp at hf

theorem Nested.of_frames (h : s.Nested) (hframes : t.frames = s.frames)
    (hcurrent : ∀ k, t.current = some k → k < s.frames.size) : t.Nested :=
  ⟨fun k hk => hframes ▸ hcurrent k hk, fun j f hf => h.frames j f (hframes ▸ hf)⟩

theorem Nested.goTo (h : s.Nested) (hk : k < s.frames.size) : (s.goTo (some k)).Nested := by
  refine h.of_frames rfl fun j hj => ?_
  cases hj
  exact hk

theorem Nested.at_ (h : s.Nested) (hk : s.current = some k) : s.At k :=
  ⟨hk, h.current k hk, fun j f hf => (h.frames j f hf).sited⟩

theorem Nested.frame_of_current (h : s.Nested) (hk : s.current = some k) :
    ∃ f, s.frames[k]? = some f :=
  ⟨_, Array.getElem?_eq_getElem (h.current k hk)⟩

theorem Nested.enter (h : s.Nested) : s.enter.Nested := by
  have hsize : s.enter.frames.size = s.frames.size + 1 := by simp [Scopes.enter]
  refine ⟨fun k hk => ?_, fun j f hf => ?_⟩
  · cases hk
    omega
  · have hj := (Array.getElem?_eq_some_iff.mp hf).1
    rcases Nat.lt_succ_iff_lt_or_eq.mp (hsize ▸ hj) with hlt | rfl
    · rw [frames_enter s hlt] at hf
      exact h.frames j f hf
    · rw [frames_enter_self] at hf
      cases hf
      exact ⟨h.current, fun name _ _ _ hname => by simp at hname⟩

theorem nested_start : start.Nested := nested_empty.enter

theorem Nested.enclosing_lt (h : s.Nested) {p : Nat} (hp : s.enclosing = some p) :
    p < s.frames.size := by
  obtain ⟨f, hf, hparent⟩ := Option.bind_eq_some_iff.mp hp
  obtain ⟨k, hk, hf⟩ := Option.bind_eq_some_iff.mp hf
  exact Nat.lt_trans ((h.frames k f hf).parent p hparent) (h.current k hk)

theorem Nested.exit (h : s.Nested) : s.exit.Nested :=
  h.of_frames rfl fun _ hk => h.enclosing_lt hk

def Admits (s : Scopes) (v : Variable) : Prop :=
  ∀ collection index outer, v = .element collection index outer → s.enclosing = some outer

theorem Nested.insert (h : s.Nested) (hv : s.Admits v) (name : String) :
    (s.insert name v).Nested := by
  cases hk : s.current with
  | none =>
    unfold Scopes.insert
    rw [hk]
    exact h
  | some k =>
    obtain ⟨g, hg⟩ := h.frame_of_current hk
    have hparent : s.enclosing = g.parent := by
      rw [enclosing, frame?, hk, Option.bind_some, hg, Option.bind_some]
    refine ⟨fun i hi => ?_, fun j f hf => ?_⟩
    · rw [current_insert] at hi
      have hsize : (s.insert name v).frames.size = s.frames.size := by
        simp [Scopes.insert, hk]
      rw [hsize]
      exact h.current i hi
    · rw [frames_insert hk] at hf
      obtain ⟨f', hf', rfl⟩ := Option.map_eq_some_iff.mp hf
      have hnests := h.frames j f' hf'
      split
      · next heq =>
        subst heq
        rw [hg] at hf'
        cases hf'
        refine ⟨hnests.parent, fun other collection index outer hother => ?_⟩
        dsimp only at hother ⊢
        rw [Std.TreeMap.getElem?_insert] at hother
        split at hother
        · rw [← hparent]
          exact hv collection index outer (Option.some.inj hother)
        · exact hnests.element other collection index outer hother
      · exact hnests

theorem admits_slot (s : Scopes) (i : UInt16) : s.Admits (.slot i) := nofun

/-- Counting slots and hidden names binds nothing. -/
theorem Nested.count (h : s.Nested) (n m : Nat) :
    ({ s with slotCount := n, hidden := m } : Scopes).Nested :=
  h.of_frames rfl h.current

theorem Nested.declareHidden (h : s.Nested) (purpose : String) :
    (s.declareHidden purpose).2.Nested :=
  (h.count (s.slotCount + 1) (s.hidden + 1)).insert (admits_slot _ _) _

theorem Nested.declare (h : s.Nested) {slot : UInt16} (hd : s.declare name = some (slot, t)) :
    t.Nested := by
  unfold Scopes.declare at hd
  split at hd
  · cases hd
  · cases hd
    exact (h.count (s.slotCount + 1) s.hidden).insert (admits_slot _ _) _

theorem Nested.bind (h : s.Nested) (hv : s.Admits v) (hb : s.bind name v = some t) : t.Nested := by
  unfold Scopes.bind at hb
  split at hb
  · cases hb
  · cases hb
    exact h.insert hv name

/-- The first frame that has a name, from frame `i` outward, through so many frames at most. Reads
of frames that are not there, and a walk that does not end, give nothing. -/
def climb (s : Scopes) (name : String) : Nat → Nat → Option (Option Variable)
  | 0, _ => none
  | steps + 1, i =>
    match s.frames[i]? with
    | none => none
    | some f =>
      match f.bindings[name]? with
      | some v => some (some v)
      | none =>
        match f.parent with
        | some p => s.climb name steps p
        | none => some none

theorem Nested.climb_eq (h : s.Nested) {steps i : Nat} (hi : i < steps)
    (hsize : i < s.frames.size) : s.climb name steps i = some (s.resolveFrom name i) := by
  induction steps generalizing i with
  | zero => exact absurd hi (Nat.not_lt_zero i)
  | succ steps ih =>
    obtain ⟨f, hf⟩ : ∃ f, s.frames[i]? = some f := ⟨_, Array.getElem?_eq_getElem hsize⟩
    have hnests := h.frames i f hf
    rw [climb, resolveFrom]
    simp only [hf]
    cases f.bindings[name]? with
    | some v => rfl
    | none =>
      cases hp : f.parent with
      | none => rfl
      | some p =>
        have hlt := hnests.parent p hp
        simp only [if_pos hlt]
        exact ih (by omega) (by omega)

/-- What a name stands for, where the walk meets as many frames as there are. -/
def resolve? (s : Scopes) (name : String) : Option (Option Variable) :=
  match s.current with
  | some i => s.climb name s.frames.size i
  | none => some none

theorem Nested.resolve?_eq (h : s.Nested) (name : String) :
    s.resolve? name = some (s.resolve name) := by
  unfold resolve? resolve
  cases hk : s.current with
  | none => rfl
  | some i => exact h.climb_eq (h.current i hk) (h.current i hk)

end Scopes

/-! ## Expansion -/

open Lower

/-- A chain of frames with the tables, and all chains that there were, latest first. -/
structure Trail where
  scopes : Scopes
  pool : Pool
  seen : List Scopes

def Trail.to (s : Trail) (U : Scopes) : Trail := { s with scopes := U, seen := U :: s.seen }

abbrev Expanding := ExceptT CompileError (StateT Trail Option)

namespace Expanding

variable {α β : Type}

instance : MonadLift Lower Expanding where
  monadLift f := ExceptT.mk fun s => let r := f.run.run s.pool; some (r.1, { s with pool := r.2 })

def halt : Expanding α := ExceptT.mk fun _ => none

def scopes : Expanding Scopes := ExceptT.mk fun s => some (.ok s.scopes, s)

def put (U : Scopes) : Expanding Unit := ExceptT.mk fun s => some (.ok (), s.to U)

/-- A computation from other frames, and what is made of the frames at its end, an error or not. -/
def between (before : Scopes → Scopes) (after : Scopes → Scopes → Scopes) (x : Expanding α) :
    Expanding α :=
  ExceptT.mk fun s => do
    let (r, t) ← x.run.run (s.to (before s.scopes))
    some (r, t.to (after s.scopes t.scopes))

def within (frame : Nat) (x : Expanding α) : Expanding α :=
  between (·.goTo (some frame)) (fun S U => U.goTo S.current) x

def find (name : String) : Expanding (Option Variable) := do
  match (← scopes).resolve? name with
  | some v => return v
  | none => halt

def readGlobalSlot (env : Env) (t : Token) : Expanding Code := do
  return [.getVariable (← liftM (readGlobal env t))]

/-- Code that reads a name from the current frame, where elements are expanded one inside another
fewer times than given. -/
def expand (env : Env) : Nat → Token → Expanding Code
  | 0, _ => halt
  | depth + 1, t => do
    match ← find t.text with
    | none => readGlobalSlot env t
    | some (.slot i) => return [.getVariable (.ofLocal i)]
    | some (.element collection index outer) =>
      let code ← within outer (exprOver env (expand env depth) collection)
      return code ++ [Instruction.getVariable (.ofLocal index), .getElement]

def read (env : Env) (t : Token) : Expanding Code := do
  expand env ((← scopes).frames.size + 1) t

def assigned (env : Env) (t : Token) : Expanding Slot := do
  match ← find t.text with
  | some (.slot i) => return .ofLocal i
  | some (.element _ _ _) => throw (.notAssignable t.span)
  | none => liftM (readGlobal env t)

def declare (t : Token) : Expanding UInt16 := do
  match (← scopes).declare t.text with
  | some (slot, U) =>
    put U
    return slot
  | none => throw (.duplicateVariable t.text t.span)

def hidden (purpose : String) : Expanding UInt16 := do
  let (slot, U) := (← scopes).declareHidden purpose
  put U
  return slot

def element (name : Token) (collection : Expr) (index : UInt16) : Expanding Unit := do
  match (← scopes).enclosing with
  | none => throw (.internal "foreach outside a subroutine frame")
  | some frame =>
    match (← scopes).bind name.text (.element collection index frame) with
    | none => throw (.duplicateVariable name.text name.span)
    | some U => put U

def keeper (env : Env) : Keeper Expanding where
  read := read env
  assigned := assigned env
  declare := declare
  hidden := hidden
  element := element
  frame := between Scopes.enter fun _ U => U.exit
  slots := do return (← scopes).slotCount

theorem run_bind (x : Expanding α) (y : α → Expanding β) (s : Trail) :
    (x >>= y).run.run s = (x.run.run s).bind fun
      | (.ok a, t) => (y a).run.run t
      | (.error e, t) => some (.error e, t) := by
  simp only [ExceptT.run_bind, StateT.run_bind]
  rcases x.run.run s with _ | ⟨a | e, t⟩ <;> rfl

/-! Reading. -/

/-- A computation that comes to the same as one of lowering, and ends with the frames `S` that it
starts with. All frames on the way nest. -/
def Reads (S : Scopes) (x : Expanding α) (f : Lower α) : Prop :=
  ∀ p seen, ∃ more, x.run.run ⟨S, p, seen⟩ =
      some ((f.run.run p).1, ⟨S, (f.run.run p).2, more ++ seen⟩) ∧ ∀ T ∈ more, T.Nested

variable {env : Env} {S T : Scopes}

theorem reads_mirrors (S : Scopes) : Mirrors (fun x f => Reads S x f) where
  pure _ _ _ := ⟨[], rfl, nofun⟩
  lift _ _ _ := ⟨[], rfl, nofun⟩
  throw _ _ _ := ⟨[], rfl, nofun⟩
  throw_bind _ _ _ := ⟨[], rfl, nofun⟩
  bind := by
    intro _ _ x f y g hx hy p seen
    obtain ⟨more, hrun, hnested⟩ := hx p seen
    rw [run_bind, hrun, Lower.run_bind]
    rcases f.run.run p with ⟨e | a, q⟩
    · exact ⟨more, rfl, hnested⟩
    · obtain ⟨later, hlater, hnested'⟩ := hy a q (more ++ seen)
      refine ⟨later ++ more, ?_, fun T hT => ?_⟩
      · rw [List.append_assoc]
        exact hlater
      · rcases List.mem_append.mp hT with hT | hT
        · exact hnested' T hT
        · exact hnested T hT

theorem Reads.within {x : Expanding α} {f : Lower α} {frame : Nat} (hS : S.Nested)
    (hframe : frame < S.frames.size) (h : Reads (S.goTo (some frame)) x f) :
    Reads S (within frame x) f := by
  intro p seen
  obtain ⟨more, hrun, hnested⟩ := h p (S.goTo (some frame) :: seen)
  refine ⟨S :: (more ++ [S.goTo (some frame)]), ?_, fun T hT => ?_⟩
  · change (x.run.run ⟨S.goTo (some frame), p, S.goTo (some frame) :: seen⟩).bind _ = _
    rw [hrun]
    simp [Trail.to, Scopes.goTo]
  · rcases List.mem_cons.mp hT with rfl | hT
    · exact hS
    · rcases List.mem_append.mp hT with hT | hT
      · exact hnested T hT
      · rw [List.mem_singleton.mp hT]
        exact hS.goTo hframe

theorem readGlobalSlot_reads (S : Scopes) (env : Env) (t : Token) :
    Reads S (readGlobalSlot env t) (do return [.getVariable (← readGlobal env t)]) :=
  (reads_mirrors S).bind ((reads_mirrors S).lift (readGlobal_neutral t)) fun _ =>
    (reads_mirrors S).pure _

/-- What a step does with the frames of the state. -/
theorem Reads.scopes_bind {y : Scopes → Expanding α} {f : Lower α} (h : Reads S (y S) f) :
    Reads S (scopes >>= y) f := h

theorem Reads.find_bind (hS : S.Nested) {name : String} {y : Option Variable → Expanding α}
    {f : Lower α} (h : Reads S (y (S.resolve name)) f) : Reads S (find name >>= y) f := by
  have hfind : ∀ p seen, (find name).run.run ⟨S, p, seen⟩ =
      some (.ok (S.resolve name), ⟨S, p, seen⟩) := by
    intro p seen
    change ExceptT.run (match S.resolve? name with | some v => pure v | none => halt)
      ⟨S, p, seen⟩ = _
    rw [hS.resolve?_eq]
    rfl
  intro p seen
  rw [run_bind, hfind]
  exact h p seen

theorem exprOver_reads {read : Token → Expanding Code} {read' : Token → Lower Code}
    (h : ∀ t, Reads S (read t) (read' t)) (e : Expr) :
    Reads S (exprOver env read e) (lowerExpr env read' e) := by
  rw [← exprOver_lower]
  exact exprOver_mirrors (reads_mirrors S) h e

/-- Names are read from the frame that a computation is in, with one expansion for each frame that
lies before it at most. -/
theorem expand_reads {depth frame : Nat} (hT : T.Nested) (hcurrent : T.current = some frame)
    (hframes : T.frames = S.frames) (hdepth : frame < depth) (t : Token) :
    Reads T (expand env depth t) (readFrom env S frame t) := by
  induction depth generalizing T frame t with
  | zero => exact absurd hdepth (Nat.not_lt_zero _)
  | succ depth ih =>
    have hsame : T.resolveFrom t.text frame = S.resolveFrom t.text frame :=
      Scopes.resolveFrom_congr t.text fun j _ => by rw [hframes]
    rw [expand, readFrom]
    refine Reads.find_bind hT ?_
    rw [Scopes.resolve, hcurrent, Option.bind_some, hsame]
    cases hfound : S.resolveFrom t.text frame with
    | none => exact readGlobalSlot_reads T env t
    | some v =>
      cases v with
      | slot i => exact (reads_mirrors T).pure _
      | element collection index outer =>
        have hlt : outer < frame := (hT.at_ hcurrent).outer_lt (hsame.trans hfound)
        have houter : outer < T.frames.size := Nat.lt_trans hlt (hT.current frame hcurrent)
        simp only [dif_pos hlt]
        refine (reads_mirrors T).bind (Reads.within hT houter
          (exprOver_reads (fun t => ?_) collection)) fun _ => (reads_mirrors T).pure _
        exact ih (hT.goTo houter) rfl hframes (by omega) t

theorem read_reads (hS : S.Nested) (t : Token) : Reads S (read env t) (readName env S t) := by
  refine Reads.scopes_bind ?_
  unfold readName
  cases hcurrent : S.current with
  | some frame =>
    exact expand_reads hS hcurrent rfl (Nat.lt_succ_of_lt (hS.current frame hcurrent)) t
  | none =>
    rw [expand]
    refine Reads.find_bind hS ?_
    rw [Scopes.resolve, hcurrent]
    exact readGlobalSlot_reads S env t

theorem assigned_reads (hS : S.Nested) (t : Token) :
    Reads S (assigned env t) (assignedSlot env S t) := by
  refine Reads.find_bind hS ?_
  unfold assignedSlot
  rcases S.resolve t.text with _ | i | _
  · exact (reads_mirrors S).lift (readGlobal_neutral t)
  · exact (reads_mirrors S).pure _
  · exact (reads_mirrors S).throw trivial

theorem expr_reads (hS : S.Nested) (e : Expr) :
    Reads S (exprOver env (read env) e) (lower env S e) :=
  exprOver_reads (read_reads hS) e

theorem assign_reads (hS : S.Nested) (target value : Expr) :
    Reads S (assignOver env (read env) (assigned env) target value)
      (lowerAssign env S target value) := by
  rw [← assignOver_lower]
  exact assignOver_mirrors (reads_mirrors S) (read_reads hS) (assigned_reads hS) target value

/-! Statements. -/

/-- A computation that does what lowering does from frames that nest, and comes to the same frames
unless there is an error. All frames on the way nest. -/
def Runs (x : Expanding α) (f : Scopes → Lower (α × Scopes)) : Prop :=
  ∀ S p seen, S.Nested → ∃ r U q more, x.run.run ⟨S, p, seen⟩ = some (r, ⟨U, q, more ++ seen⟩) ∧
    (f S).run.run p = (r.map (·, U), q) ∧ U.Nested ∧ ∀ T ∈ more, T.Nested

theorem Reads.runs {x : Expanding α} {f : Scopes → Lower α} (h : ∀ S, S.Nested → Reads S x (f S)) :
    Runs x fun S => (·, S) <$> f S := by
  intro S p seen hS
  obtain ⟨more, hrun, hnested⟩ := h S hS p seen
  refine ⟨_, S, _, more, hrun, ?_, hS, hnested⟩
  dsimp only
  rw [map_eq_pure_bind, Lower.run_bind]
  rcases (f S).run.run p with ⟨e | a, q⟩ <;> rfl

theorem run_declare (t : Token) (S : Scopes) (p : Pool) (seen : List Scopes) :
    (declare t).run.run ⟨S, p, seen⟩ = match S.declare t.text with
      | some (slot, U) => some (.ok slot, ⟨U, p, U :: seen⟩)
      | none => some (.error (.duplicateVariable t.text t.span), ⟨S, p, seen⟩) := by
  change ExceptT.run (match S.declare t.text with
    | some (slot, U) => (do put U; return slot)
    | none => throw (.duplicateVariable t.text t.span)) ⟨S, p, seen⟩ = _
  cases S.declare t.text <;> rfl

theorem run_element (name : Token) (collection : Expr) (index : UInt16) (S : Scopes) (p : Pool)
    (seen : List Scopes) :
    (element name collection index).run.run ⟨S, p, seen⟩ = match S.enclosing with
      | none => some (.error (.internal "foreach outside a subroutine frame"), ⟨S, p, seen⟩)
      | some frame =>
        match S.bind name.text (.element collection index frame) with
        | none => some (.error (.duplicateVariable name.text name.span), ⟨S, p, seen⟩)
        | some U => some (.ok (), ⟨U, p, U :: seen⟩) := by
  change ExceptT.run (match S.enclosing with
    | none => throw (.internal "foreach outside a subroutine frame")
    | some frame => scopes >>= fun T =>
      match T.bind name.text (.element collection index frame) with
      | none => throw (.duplicateVariable name.text name.span)
      | some U => put U) ⟨S, p, seen⟩ = _
  cases S.enclosing with
  | none => rfl
  | some frame =>
    change ExceptT.run (match S.bind name.text (.element collection index frame) with
      | none => throw (.duplicateVariable name.text name.span)
      | some U => put U) ⟨S, p, seen⟩ = _
    dsimp only
    cases S.bind name.text (.element collection index frame) <;> rfl

theorem runs_tracks (env : Env) : Tracks (keeper env) env (fun x f => Runs x f) where
  pure _ S p seen hS := ⟨_, S, p, [], rfl, rfl, hS, nofun⟩
  lift hf := Reads.runs fun S _ => (reads_mirrors S).lift hf
  throw _ S p seen hS := ⟨_, S, p, [], rfl, rfl, hS, nofun⟩
  bind := by
    intro _ _ x f y g hx hy S p seen hS
    obtain ⟨r, U, q, more, hrun, hlower, hU, hnested⟩ := hx S p seen hS
    rw [run_bind, hrun, Lower.run_bind, hlower]
    rcases r with e | a
    · exact ⟨.error e, U, q, more, rfl, rfl, hU, hnested⟩
    · obtain ⟨r', V, q', later, hrun', hlower', hV, hnested'⟩ := hy a U q (more ++ seen) hU
      refine ⟨r', V, q', later ++ more, ?_, hlower', hV, fun T hT => ?_⟩
      · rw [List.append_assoc]
        exact hrun'
      · rcases List.mem_append.mp hT with hT | hT
        · exact hnested' T hT
        · exact hnested T hT
  expr e := Reads.runs fun S hS => expr_reads hS e
  assign target value := Reads.runs fun S hS => assign_reads hS target value
  declare t S p seen hS := by
    dsimp only [keeper]
    rw [run_declare]
    cases hd : S.declare t.text with
    | none => exact ⟨_, S, p, [], rfl, rfl, hS, nofun⟩
    | some r =>
      have hU := hS.declare hd
      exact ⟨_, r.2, p, [r.2], rfl, rfl, hU, by simpa using hU⟩
  hidden purpose S p seen hS := by
    have hU := hS.declareHidden purpose
    refine ⟨_, _, p, [_], rfl, rfl, hU, fun T hT => ?_⟩
    rw [List.mem_singleton.mp hT]
    exact hU
  element name collection index S p seen hS := by
    dsimp only [keeper]
    rw [run_element]
    cases hframe : S.enclosing with
    | none => exact ⟨_, S, p, [], rfl, rfl, hS, nofun⟩
    | some frame =>
      dsimp only
      cases hb : S.bind name.text (.element collection index frame) with
      | none => exact ⟨_, S, p, [], rfl, rfl, hS, nofun⟩
      | some U =>
        have hU : U.Nested := by
          refine hS.bind (fun _ _ _ hv => ?_) hb
          cases hv
          exact hframe
        exact ⟨_, U, p, [U], rfl, rfl, hU, by simpa using hU⟩
  frame := by
    intro _ x f hx S p seen hS
    obtain ⟨r, U, q, more, hrun, hlower, hU, hnested⟩ := hx S.enter p (S.enter :: seen) hS.enter
    refine ⟨r, U.exit, q, U.exit :: (more ++ [S.enter]), ?_, ?_, hU.exit, fun T hT => ?_⟩
    · change (x.run.run ⟨S.enter, p, S.enter :: seen⟩).bind _ = _
      rw [hrun]
      simp [Trail.to]
    · rw [Lower.run_bind, hlower]
      cases r <;> rfl
    · rcases List.mem_cons.mp hT with rfl | hT
      · exact hU.exit
      · rcases List.mem_append.mp hT with hT | hT
        · exact hnested T hT
        · rw [List.mem_singleton.mp hT]
          exact hS.enter
  slots S p seen hS := ⟨_, S, p, [], rfl, rfl, hS, nofun⟩

/-- In all chains of frames that the lowering of a body goes through, an error or not, frames nest.
From each of them every expression comes to an end, though elements are expanded wherever they
lead, and so does the body. -/
theorem subroutineOver_nests (env : Env) (s : Subroutine) (p : Pool) :
    ∃ r U q seen, (subroutineOver (keeper env) env s).run.run ⟨.start, p, [.start]⟩ =
        some (r, ⟨U, q, seen⟩) ∧ (lowerSubroutine env s).run.run p = (r, q) ∧
      ∀ T ∈ seen, T.Nested ∧ ∀ e p, ∃ log, (exprOver env (read env) e).run.run ⟨T, p, []⟩ =
        some (((lower env T e).run.run p).1, ⟨T, ((lower env T e).run.run p).2, log⟩) := by
  obtain ⟨f, hruns, hlower⟩ := subroutineOver_tracks (runs_tracks env) s
  obtain ⟨r, U, q, more, hrun, hf, -, hnested⟩ := hruns .start p [.start] Scopes.nested_start
  refine ⟨r, U, q, more ++ [Scopes.start], hrun, ?_, fun T hT => ?_⟩
  · rw [hlower, map_eq_pure_bind, Lower.run_bind, hf]
    cases r <;> rfl
  · have hT : T.Nested := by
      rcases List.mem_append.mp hT with hT | hT
      · exact hnested T hT
      · rw [List.mem_singleton.mp hT]
        exact Scopes.nested_start
    refine ⟨hT, fun e p => ?_⟩
    obtain ⟨log, hread, -⟩ := expr_reads hT e p []
    exact ⟨log, by rw [hread, List.append_nil]⟩

end Expanding

end Lss
