import Lss.Proofs.LaidOut

/-!
# Probes

Reading a body bounds each stretch by checks that a position lies where it should. A probe reads
the same body without them: it follows branches wherever they lead, stops apart from all errors
when it reads outside the code or its offsets, has only so many turns, and notes every move of a
position and every stretch that is read on its own.
-/
namespace Lss

inductive Event where
  /-- In the stretch from `start` to `stop`, the position moves from `place` to `next`. -/
  | advance (start stop place next : Nat)
  /-- In the stretch from `start` to `stop`, the one from `first` to `last` is read on its own. -/
  | descend (start stop first last : Nat)
deriving DecidableEq, Repr

/-- Positions move forward and stay inside; what is read on its own lies inside and is shorter. -/
def Event.Narrows : Event → Prop
  | .advance start stop place next => start ≤ place ∧ place < next ∧ next ≤ stop
  | .descend start stop first last =>
    start ≤ first ∧ first ≤ last ∧ last ≤ stop ∧ last - first < stop - start

inductive Halt where
  | rejected (e : DecompileError)
  /-- A place outside the code or its offsets was read. -/
  | outside
  /-- No turns are left. -/
  | unfinished
deriving DecidableEq, Repr

abbrev Probe := ExceptT Halt (StateM (List Event))

namespace Probe

variable {α β : Type}

def note (e : Event) : Probe Unit := modify (· ++ [e])

def reject (e : DecompileError) : Probe α := throw (.rejected e)

def fetch (xs : Array α) (i : Nat) : Probe α :=
  match xs[i]? with
  | some x => pure x
  | none => throw .outside

def ofExcept : Except DecompileError α → Probe α
  | .ok a => pure a
  | .error e => reject e

/-- A probe gives what a computation gives, and its notes are of the right kind. -/
def Agrees (x : Probe α) (r : Except DecompileError α) : Prop :=
  ∀ log, ∃ events, x.run.run log = (r.mapError .rejected, log ++ events) ∧
    ∀ e ∈ events, e.Narrows

variable {x : Probe α} {f : α → Probe β} {r : Except DecompileError α}
  {s : Except DecompileError β}

theorem agrees_pure (a : α) : Agrees (pure a) (.ok a) :=
  fun log => ⟨[], by rw [List.append_nil]; rfl, by simp⟩

theorem agrees_reject (e : DecompileError) : Agrees (reject e : Probe α) (.error e) :=
  fun log => ⟨[], by rw [List.append_nil]; rfl, by simp⟩

theorem agrees_ofExcept (r : Except DecompileError α) : Agrees (ofExcept r) r := by
  cases r with
  | ok a => exact agrees_pure a
  | error e => exact agrees_reject e

theorem agrees_note {e : Event} (h : e.Narrows) : Agrees (note e) (.ok ()) :=
  fun log => ⟨[e], rfl, by simpa using h⟩

theorem agrees_fetch {xs : Array α} {i : Nat} {a : α} (h : xs[i]? = some a) :
    Agrees (fetch xs i) (.ok a) := by
  unfold fetch
  rw [h]
  exact agrees_pure a

/-- One probe after another agrees with a computation that fails where the first one does. -/
theorem Agrees.bind (hx : Agrees x r) (herror : ∀ e, r = .error e → s = .error e)
    (hok : ∀ a, r = .ok a → Agrees (f a) s) : Agrees (x >>= f) s := by
  intro log
  obtain ⟨events, hrun, hsound⟩ := hx log
  have hstep : (x >>= f).run.run log =
      match x.run.run log with
      | (.ok a, log') => (f a).run.run log'
      | (.error h, log') => (.error h, log') := by
    rw [ExceptT.run_bind, StateT.run_bind]
    show _ = match x.run.run log with | (.ok a, log') => _ | (.error h, log') => _
    rcases StateT.run x.run log with ⟨_ | _, _⟩ <;> rfl
  rw [hstep, hrun]
  cases hr : r with
  | error e =>
    rw [herror e hr]
    exact ⟨events, rfl, hsound⟩
  | ok a =>
    obtain ⟨later, hlater, hsound'⟩ := hok a hr (log ++ events)
    refine ⟨events ++ later, ?_, fun e he => ?_⟩
    · rw [← List.append_assoc]
      exact hlater
    · rcases List.mem_append.mp he with he | he
      · exact hsound e he
      · exact hsound' e he

/-- What goes on after a probe that gives a result. -/
theorem Agrees.then {a : α} (hx : Agrees x (.ok a)) (hok : Agrees (f a) s) :
    Agrees (x >>= f) s := by
  refine hx.bind (fun _ h => nomatch h) fun a' ha' => ?_
  cases ha'
  exact hok

theorem agrees_reject_bind (e : DecompileError) (f : α → Probe β) :
    Agrees (reject e >>= f) (.error e) :=
  (agrees_reject e).bind (fun _ h => by cases h; rfl) fun _ h => nomatch h

/-- A probe of which only a result counts: what is rejected gives `false`. -/
def attempt (p : Probe Bool) : Probe Bool := ExceptT.mk do
  match ← p.run with
  | .error (.rejected _) => pure (.ok false)
  | r => pure r

theorem agrees_attempt {p : Probe Bool} {r : Except DecompileError Bool} (h : Agrees p r) :
    Agrees (attempt p) (.ok (r.toOption.getD false)) := by
  intro log
  obtain ⟨events, hrun, hsound⟩ := h log
  refine ⟨events, ?_, hsound⟩
  unfold attempt
  rw [ExceptT.run_mk, StateT.run_bind, hrun]
  cases r <;> rfl

end Probe

namespace Body

open Probe

def probeTarget (b : Body) (i : Nat) : Probe Nat := do
  let instruction ← fetch b.code i
  match instruction.distance? with
  | none => reject (.unexpected instruction i)
  | some d =>
    let stop ← fetch b.offsets (i + 1)
    let landing := (stop : Int) + d.toInt
    if landing < 0 then reject (.invalidTarget i)
    else
      match b.places[landing.toNat]? with
      | some place => pure place
      | none => reject (.invalidTarget i)

def probeBack (b : Body) (i : Nat) (instruction : Instruction) : Probe Body :=
  match instruction with
  | .branch .always _ | .branch .ifTrue _ => do
    let t ← b.probeTarget i
    if t ≤ i then
      pure { b with backEdges := b.backEdges.insert t (i :: b.backEdges.getD t []) }
    else pure b
  | _ => pure b

def probeAll (b : Body) (i : Nat) : Code → Probe Body
  | [] => pure b
  | instruction :: code => do
    let b ← b.probeBack i instruction
    b.probeAll (i + 1) code

def lastBack? (b : Body) (head stop : Nat) : Option Nat :=
  ((b.backEdges.getD head []).filter (· < stop)).max?

/-- Whether a branch on a false condition stands at `k` and leads to `place`. -/
def probeLeaves (b : Body) (place k : Nat) : Probe Bool := do
  match ← fetch b.code k with
  | .branch .ifFalse _ =>
    attempt do return (← b.probeTarget k) == place
  | _ => pure false

def probeExit (b : Body) (place : Nat) : List Nat → Probe (Option Nat)
  | [] => pure none
  | k :: ks => do
    if ← b.probeLeaves place k then pure (some k) else b.probeExit place ks

section

/-! The shapes of code, given how a stretch that is part of one is read. -/

variable (inner : Nat → Nat → Probe (List Stmt × OperandStack))

def probeSettled (first last : Nat) : Probe (List Stmt) := do
  ofExcept (settled last (← inner first last))

def probeDoWhile (head back : Nat) : Probe Stmt := do
  match ← inner head back with
  | (body, [value]) =>
    let c ← ofExcept (Stacked.valueOf back value)
    return .doWhile (.ofList body) c
  | _ => reject (.unstructured back)

def probeWhile (b : Body) (head back : Nat) : Probe Stmt := do
  match ← b.probeExit (back + 1) (List.range' head (back - head)) with
  | none => reject (.unstructured back)
  | some exit =>
    match ← inner head exit with
    | ([], [value]) =>
      let c ← ofExcept (Stacked.valueOf exit value)
      let body ← probeSettled inner (exit + 1) back
      return .while_ c (.ofList body)
    | _ => reject (.unstructured exit)

def probeLoop (b : Body) (head back : Nat) : Probe Stmt := do
  match ← fetch b.code back with
  | .branch .ifTrue _ => probeDoWhile inner head back
  | _ => probeWhile inner b head back

def probePlain (c : Expr) (i t : Nat) : Probe (Stmt × Nat) := do
  let body ← probeSettled inner (i + 1) t
  return (.if_ (some c) (.ofList body) none .synthetic, t)

def probeElse (b : Body) (stop : Nat) (c : Expr) (i last : Nat) : Probe (Stmt × Nat) := do
  let join ← b.probeTarget last
  if stop < join then reject (.unstructured last)
  else
    let body ← probeSettled inner (i + 1) last
    let arm ← probeSettled inner (last + 1) join
    let arm : Stmt := .if_ none (elseArm arm) none .synthetic
    return (.if_ (some c) (.ofList body) (some arm) .synthetic, join)

def probeIf (b : Body) (stop : Nat) (stack : OperandStack) (i : Nat) : Probe (Stmt × Nat) := do
  let t ← b.probeTarget i
  if t ≤ i ∨ stop < t then reject (.unstructured i)
  else
    let c ← ofExcept (condition i stack)
    if i < t - 1 then
      match ← fetch b.code (t - 1) with
      | .branch .always d =>
        if 0 < d then probeElse inner b stop c i (t - 1) else probePlain inner c i t
      | _ => probePlain inner c i t
    else probePlain inner c i t

def probeTurn (b : Body) (stop : Nat) (stack : OperandStack) (acc : List Stmt) (i : Nat) :
    Probe (OperandStack × List Stmt × Nat) := do
  match if stack.isEmpty then b.lastBack? i stop else none with
  | some back =>
    let s ← probeLoop inner b i back
    return (stack, s :: acc, back + 1)
  | none =>
    let instruction ← fetch b.code i
    match instruction with
    | .branch .ifFalse _ =>
      let (s, next) ← probeIf inner b stop stack i
      return ([], s :: acc, next)
    | .branch .always d => if d = 0 then return (stack, acc, i + 1) else reject (.unstructured i)
    | .branch .ifTrue _ => reject (.unstructured i)
    | instruction =>
      match (step b.library b.names instruction i).run.run stack with
      | (.error e, _) => reject e
      | (.ok none, stack) => return (stack, acc, i + 1)
      | (.ok (some s), stack) => return (stack, s :: acc, i + 1)

end

/-- Reads on at `i` in the stretch from `start` to `stop`, with so many turns at most. -/
def probeRegion (b : Body) :
    Nat → Nat → Nat → OperandStack → List Stmt → Nat → Probe (List Stmt × OperandStack)
  | 0, _, _, _, _, _ => throw .unfinished
  | turns + 1, start, stop, stack, acc, i =>
    let inner first last := do
      note (.descend start stop first last)
      b.probeRegion turns first last [] [] first
    if i < stop then do
      let (stack, acc, next) ← probeTurn inner b stop stack acc i
      note (.advance start stop i next)
      b.probeRegion turns start stop stack acc next
    else pure (acc.reverse, stack)

/-- Lays out code and reads it, with one turn more than it has instructions at any depth. -/
def probe (l : Library) (names : SlotNames) (code : Code) : Probe (List Stmt) := do
  let b ← (layout l names code).probeAll 0 code
  let size := b.code.size
  ofExcept (settled size (← b.probeRegion (size + 1) 0 size [] [] 0))

end Body

end Lss
