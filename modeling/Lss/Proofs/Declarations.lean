import Lss.Proofs.Lexical
import Lss.Proofs.Unwound

/-!
# Declarations of a body

The declarations of a body are listed in the order of its text, each with the frame that it is in
and its number among the slots. The chain of frames makes them in that order. It stops at a name
that its frame has already, and, with another error, before or behind any of them; it never makes a
name twice in a frame. When it comes to the end, all are made, with slots of their own.
-/
namespace Lss

open Lower

structure Declaration where
  /-- Its frame, by the order in which frames are opened. -/
  frame : Nat
  name : String
  /-- Its number among the slots. Elements of loops have no slot of their own. -/
  slot? : Option Nat
  span : Span := .synthetic

def Declaration.key (d : Declaration) : Nat × String := (d.frame, d.name)

/-- The declarations of a text up to some place, and what was counted on the way. -/
structure Ledger where
  frames : Nat := 1
  slots : Nat := 0
  hidden : Nat := 0
  /-- In order. -/
  made : List Declaration := []

namespace Ledger

def enter (L : Ledger) : Ledger := { L with frames := L.frames + 1 }

def declare (L : Ledger) (k : Nat) (t : Token) : Ledger :=
  { L with slots := L.slots + 1, made := L.made ++ [⟨k, t.text, some L.slots, t.span⟩] }

def hide (L : Ledger) (k : Nat) (purpose : String) : Ledger :=
  { L with
    slots := L.slots + 1
    hidden := L.hidden + 1
    made := L.made ++ [⟨k, "$" ++ purpose ++ toString (L.hidden + 1), some L.slots, .synthetic⟩] }

def element (L : Ledger) (k : Nat) (t : Token) : Ledger :=
  { L with made := L.made ++ [⟨k, t.text, none, t.span⟩] }

def loop (L : Ledger) (t : Token) : Ledger :=
  (((L.enter.hide L.frames "index").hide L.frames "max").element L.frames t)

end Ledger

mutual

/-- The declarations of a statement in frame `k` behind those before it. Blocks and loops over
collections open frames; a body that is no block shares the frame around it. -/
def Stmt.ledger (k : Nat) : Stmt → Ledger → Ledger
  | .block ⟨body, _⟩, L => Stmt.ledgerAll L.frames body L.enter
  | .var name _, L => L.declare k name
  | .if_ none body _ _, L | .if_ (some _) body none _, L => body.ledger k L
  | .if_ (some _) body (some arm) _, L => arm.ledger k (body.ledger k L)
  | .while_ _ body, L | .doWhile body _, L => body.ledger k L
  | .foreach element _ body, L => body.ledger L.frames (L.loop element)
  | .expr _, L | .assign _ _, L | .return_ _ _, L | .classDecl _, L | .property _, L
  | .subroutine _, L | .global _, L => L
termination_by structural s => s

def Stmt.ledgerAll (k : Nat) : List Stmt → Ledger → Ledger
  | [], L => L
  | s :: ss, L => Stmt.ledgerAll k ss (s.ledger k L)
termination_by structural ss => ss

end

/-- The object itself and the parameters of a function or a method, in the first frame. -/
def Ledger.start (parameters : List Token) (isMethod : Bool) : Ledger :=
  parameters.foldl (·.declare 0 ·) (if isMethod then Ledger.hide {} 0 "this" else {})

/-- The declarations of a function or a method. Its body shares the frame of the parameters. -/
def SubroutineOf.declarations (s : Subroutine) (isMethod : Bool) : List Declaration :=
  (Stmt.ledgerAll 0 s.body.statements (.start s.parameters isMethod)).made

/-! What scopes record. -/

namespace Declaration

def Binds (d : Declaration) (v : Variable) : Prop :=
  match d.slot? with
  | some n => v = .slot (UInt16.ofNat (min n 65535))
  | none => ∃ collection index frame, v = .element collection index frame

end Declaration

namespace Scopes

def binding? (S : Scopes) (k : Nat) (name : String) : Option Variable :=
  S.frames[k]?.bind (·.bindings[name]?)

/-- The bindings of a chain of frames are those of the declarations `made`, each name once in its
frame, with slots numbered in order. -/
structure Holds (S : Scopes) (made : List Declaration) : Prop where
  found : ∀ k name v, S.binding? k name = some v → (k, name) ∈ made.map (·.key)
  bound : ∀ d ∈ made, ∃ v, S.binding? d.frame d.name = some v ∧ d.Binds v
  once : (made.map (·.key)).Nodup
  numbers : made.filterMap (·.slot?) = List.range S.slotCount

structure Records (S : Scopes) (L : Ledger) : Prop extends S.Holds L.made where
  frames : S.frames.size = L.frames
  slots : S.slotCount = L.slots
  hidden : S.hidden = L.hidden

variable {S T : Scopes} {L : Ledger} {k : Nat} {name : String} {v : Variable}

theorem isBound_eq (hk : S.current = some k) (name : String) :
    S.isBound name = (S.binding? k name).isSome := by
  rw [isBound, frame?, hk, Option.bind_some, binding?]
  cases S.frames[k]? with
  | none => rfl
  | some f => simp

theorem binding?_insert (hk : S.current = some k) (hlt : k < S.frames.size) (j : Nat)
    (other : String) :
    (S.insert name v).binding? j other =
      if k = j ∧ name = other then some v else S.binding? j other := by
  rw [binding?, frames_insert hk]
  by_cases hkj : k = j
  · subst hkj
    obtain ⟨f, hf⟩ := Option.isSome_iff_exists.mp (isSome_getElem? S.frames k |>.mpr hlt)
    rw [binding?, hf]
    by_cases hname : name = other
    · simp [hname]
    · simp [hname, Std.TreeMap.getElem?_insert]
  · simp only [hkj, false_and, if_false]
    rw [Option.map_id']
    rfl

theorem Holds.free (h : S.Holds made) (hfree : S.binding? k name = none) :
    (k, name) ∉ made.map (·.key) := by
  intro hmem
  obtain ⟨d, hd, hkey⟩ := List.mem_map.mp hmem
  obtain ⟨v, hv, -⟩ := h.bound d hd
  cases hkey
  rw [hfree] at hv
  cases hv

theorem Records.add (h : S.Records L) (hk : S.current = some k) (hlt : k < S.frames.size)
    {d : Declaration} (hframe : d.frame = k) (hfree : S.binding? k d.name = none) (hv : d.Binds v)
    (hT : T.frames = (S.insert d.name v).frames) {n m : Nat} (hslots : T.slotCount = n)
    (hhidden : T.hidden = m) (hn : List.range L.slots ++ d.slot?.toList = List.range n) :
    T.Records { L with slots := n, hidden := m, made := L.made ++ [d] } := by
  subst hframe
  have hbinding (j : Nat) (other : String) : T.binding? j other =
      if d.frame = j ∧ d.name = other then some v else S.binding? j other := by
    rw [← binding?_insert hk hlt, binding?, binding?, hT]
  refine ⟨⟨fun j other w hw => ?_, fun d' hd' => ?_, ?_, ?_⟩, ?_, hslots, hhidden⟩
  · rw [List.map_append, List.mem_append]
    rw [hbinding] at hw
    split at hw
    · next heq =>
      obtain ⟨rfl, rfl⟩ := heq
      exact .inr (List.mem_singleton.mpr rfl)
    · exact .inl (h.found j other w hw)
  · rw [hbinding]
    rcases List.mem_append.mp hd' with hd' | hd'
    · obtain ⟨w, hw, hbinds⟩ := h.bound d' hd'
      rw [if_neg]
      · exact ⟨w, hw, hbinds⟩
      · rintro ⟨hframe, hname⟩
        rw [← hframe, ← hname, hfree] at hw
        cases hw
    · cases List.mem_singleton.mp hd'
      exact ⟨v, if_pos ⟨rfl, rfl⟩, hv⟩
  · rw [List.map_append]
    refine h.once.append (List.nodup_singleton _) (List.disjoint_singleton.mpr ?_)
    exact h.free hfree
  · rw [List.filterMap_append, h.numbers, h.slots, hslots, ← hn]
    cases hslot : d.slot? <;> simp [hslot]
  · rw [hT, size_insert]
    exact h.frames

/-- Names get the slot that comes next, whatever is counted of the hidden ones. -/
theorem Records.slot (h : S.Records L) (hk : S.current = some k) (hlt : k < L.frames)
    (hfree : S.binding? k name = none) (span : Span) {m m' : Nat} (hm : m = m') :
    ({ S with slotCount := S.slotCount + 1, hidden := m }.insert name (.slot S.nextSlot)).Records
      { L with
        slots := L.slots + 1
        hidden := m'
        made := L.made ++ [Declaration.mk k name (some L.slots) span] } := by
  refine h.add hk (by rwa [h.frames]) (d := ⟨k, name, some L.slots, span⟩) rfl hfree
    (v := .slot S.nextSlot) ?_ ?_ ?_ ?_ ?_
  · rw [nextSlot, h.slots]
    rfl
  · rw [insert, insert, hk]
  · rw [slotCount_insert]
    exact congrArg (· + 1) h.slots
  · rw [hidden_insert]
    exact hm
  · exact List.range_succ.symm

theorem start_records : Scopes.start.Records {} := by
  have hbinding (k : Nat) (name : String) : Scopes.start.binding? k name = none := by
    rw [binding?, start, Scopes.enter, Array.getElem?_push]
    split
    · simp
    · simp
  refine ⟨⟨fun k name v hv => ?_, fun d hd => ?_, List.nodup_nil, rfl⟩, rfl, rfl, rfl⟩
  · rw [hbinding] at hv
    cases hv
  · cases hd

theorem Records.enter (h : S.Records L) : S.enter.Records L.enter := by
  have hbinding (j : Nat) (name : String) : S.enter.binding? j name = S.binding? j name := by
    rw [binding?, binding?, Scopes.enter, Array.getElem?_push]
    split
    · next hj => simp [hj]
    · rfl
  refine ⟨⟨fun j name v hv => ?_, fun d hd => ?_, h.once, h.numbers⟩, ?_, h.slots, h.hidden⟩
  · exact h.found j name v (by rwa [hbinding] at hv)
  · rw [hbinding]
    exact h.bound d hd
  · simp [Scopes.enter, Ledger.enter, h.frames]

theorem Records.exit (h : S.Records L) : S.exit.Records L :=
  ⟨⟨h.found, h.bound, h.once, h.numbers⟩, h.frames, h.slots, h.hidden⟩

end Scopes

/-! What comes behind. -/

namespace Ledger

variable {L M N : Ledger} {k : Nat}

def Placed (L : Ledger) : Prop := ∀ d ∈ L.made, d.frame < L.frames

structure Grows (L M : Ledger) : Prop where
  made : L.made <+: M.made
  frames : L.frames ≤ M.frames
  placed : L.Placed → M.Placed

theorem Grows.refl (L : Ledger) : L.Grows L := ⟨List.prefix_rfl, Nat.le_refl _, id⟩

theorem Grows.trans (h : L.Grows M) (h' : M.Grows N) : L.Grows N :=
  ⟨h.made.trans h'.made, Nat.le_trans h.frames h'.frames, h'.placed ∘ h.placed⟩

theorem Grows.enter (L : Ledger) : L.Grows L.enter :=
  ⟨List.prefix_rfl, Nat.le_succ _, fun h d hd => Nat.lt_succ_of_lt (h d hd)⟩

theorem Grows.add {d : Declaration} (hd : d.frame < L.frames) (n m : Nat) :
    L.Grows { L with slots := n, hidden := m, made := L.made ++ [d] } := by
  refine ⟨List.prefix_append _ _, Nat.le_refl _, fun h d' hd' => ?_⟩
  rcases List.mem_append.mp hd' with hd' | hd'
  · exact h d' hd'
  · cases List.mem_singleton.mp hd'
    exact hd

theorem loop_grows (L : Ledger) (t : Token) : L.Grows (L.loop t) := by
  have hk : L.frames < L.enter.frames := Nat.lt_succ_self _
  exact (Grows.enter L).trans <| (Grows.add hk _ _).trans <| (Grows.add hk _ _).trans <|
    .add hk _ _

/-- A frame that was opened just now has no names. -/
theorem Placed.free (h : L.Placed) (name : String) :
    (L.frames, name) ∉ L.enter.made.map (·.key) := by
  intro hmem
  obtain ⟨d, hd, hkey⟩ := List.mem_map.mp hmem
  exact Nat.ne_of_lt (h d hd) (congrArg Prod.fst hkey)

/-- The counter and the last place of a loop have different names. -/
theorem Placed.free_max (h : L.Placed) (n : Nat) :
    (L.frames, "$" ++ "max" ++ toString n) ∉
      (L.enter.hide L.frames "index").made.map (·.key) := by
  intro hmem
  rw [hide, List.map_append, List.mem_append] at hmem
  rcases hmem with hmem | hmem
  · exact h.free _ hmem
  · have hname := congrArg (fun key => key.2.toList[1]?) (List.mem_singleton.mp hmem)
    simp [Declaration.key] at hname

/-- What is made where an error stops: a front part of all, and if a name is taken, all before the
declaration of that name. -/
structure Stops (L M : Ledger) (e : CompileError) : Prop where
  made : L.made <+: M.made
  taken : ∀ name span, e = .duplicateVariable name span → ∃ d rest, M.made = L.made ++ d :: rest ∧
    d.key ∈ L.made.map (·.key) ∧ d.name = name ∧ d.span = span

theorem Stops.neutral {e : CompileError} (h : L.Grows M) (he : e.Neutral) : L.Stops M e := by
  refine ⟨h.made, fun name span heq => ?_⟩
  subst heq
  cases he

theorem Stops.grow {e : CompileError} (h : L.Stops M e) (h' : M.Grows N) : L.Stops N e := by
  refine ⟨h.made.trans h'.made, fun name span heq => ?_⟩
  obtain ⟨d, rest, hM, htaken⟩ := h.taken name span heq
  obtain ⟨more, hN⟩ := h'.made
  exact ⟨d, rest ++ more, by rw [← hN, hM, List.append_assoc, List.cons_append], htaken⟩

end Ledger

namespace Framing

open Scopes

variable {env : Env} {k : Nat} {L M N : Ledger} {α β : Type}

/-- A computation in frame `k` that makes the declarations from one ledger to another. -/
structure Notes (k : Nat) (L M : Ledger) (x : Framing α) : Prop where
  returns : Returns x
  grows : L.Grows M
  runs : ∀ S p, S.current = some k → S.Records L → match x.run.run (S, p) with
    | (.ok _, U, _) => U.Records M
    | (.error e, U, _) => ∃ N, U.Records N ∧ N.Stops M e

theorem Notes.neutral {x : Framing α} {f : Scopes → Lower α} (h : ∀ S, Reads S x (f S))
    (hf : ∀ S, (f S).Neutral) : Notes k L L x where
  returns := Reads.returns h
  grows := .refl L
  runs S p _ hS := by
    rw [h S p]
    rcases hrun : (f S).run.run p with ⟨e | a, q⟩
    · exact ⟨L, hS, .neutral (.refl L) ((hf S).errors p e q hrun)⟩
    · exact hS

theorem Notes.pure (a : α) : Notes k L L (Pure.pure a : Framing α) :=
  .neutral (fun S => (reads_mirrors S).pure a) fun _ => .pure a

theorem Notes.lift {f : Lower α} (hf : f.Neutral) : Notes k L L (liftM f : Framing α) :=
  .neutral (fun S => (reads_mirrors S).lift hf) fun _ => hf

theorem Notes.throw {e : CompileError} (he : e.Neutral) (h : L.Grows M) :
    Notes k L M (MonadExcept.throw e : Framing α) where
  returns := Reads.returns fun S => (reads_mirrors S).throw he
  grows := h
  runs _ _ _ hS := ⟨L, hS, .neutral h he⟩

theorem Notes.bind [Inhabited α] {x : Framing α} {y : α → Framing β} (hx : Notes k L M x)
    (hy : ∀ a, Notes k M N (y a)) : Notes k L N (x >>= y) where
  returns := hx.returns.bind fun a => (hy a).returns
  grows := hx.grows.trans (hy default).grows
  runs S p hk hS := by
    have hruns := hx.runs S p hk hS
    have hreturns := hx.returns S p
    rw [run_bind]
    rcases hrun : x.run.run (S, p) with ⟨e | a, U, q⟩ <;> rw [hrun] at hruns hreturns
    · obtain ⟨N', hN', hstops⟩ := hruns
      exact ⟨N', hN', hstops.grow (hy default).grows⟩
    · exact (hy a).runs U q (hreturns.current.trans hk) hruns

theorem Notes.map [Inhabited α] {x : Framing α} {g : α → β} (hx : Notes k L M x) :
    Notes k L M (g <$> x) := by
  rw [map_eq_pure_bind]
  exact hx.bind fun a => .pure (g a)

theorem Notes.declare (hk : k < L.frames) (t : Token) :
    Notes k L (L.declare k t) ((keeper env).declare t) where
  returns := (returns_tracks env).declare t
  grows := .add hk _ _
  runs S p hS hrec := by
    dsimp only [keeper]
    rw [run_declare, declare_eq hS, isBound_eq hS]
    cases hbinding : S.binding? k t.text with
    | some v =>
      refine ⟨L, hrec, List.prefix_append _ _, fun name span heq => ?_⟩
      cases heq
      exact ⟨_, [], rfl, hrec.found k t.text v hbinding, rfl, rfl⟩
    | none => exact hrec.slot hS hk hbinding t.span hrec.hidden

theorem Notes.hide (hk : k < L.frames) (purpose : String)
    (hfree : (k, "$" ++ purpose ++ toString (L.hidden + 1)) ∉ L.made.map (·.key)) :
    Notes k L (L.hide k purpose) ((keeper env).hidden purpose) where
  returns := (returns_tracks env).hidden purpose
  grows := .add hk _ _
  runs S p hS hrec := by
    have hbinding : S.binding? k ("$" ++ purpose ++ toString (S.hidden + 1)) = none := by
      refine Option.eq_none_iff_forall_ne_some.mpr fun v hv => hfree ?_
      rw [← hrec.hidden]
      exact hrec.found k _ v hv
    have hslot := hrec.slot hS hk hbinding .synthetic (rfl : S.hidden + 1 = _)
    unfold Ledger.hide
    rw [← hrec.hidden]
    exact hslot

theorem Notes.element (hk : k < L.frames) (t : Token) (collection : Expr) (index : UInt16) :
    Notes k L (L.element k t) ((keeper env).element t collection index) where
  returns := (returns_tracks env).element t collection index
  grows := .add hk _ _
  runs S p hS hrec := by
    dsimp only [keeper]
    rw [run_element]
    cases S.enclosing with
    | none => exact ⟨L, hrec, .neutral (.add hk _ _) trivial⟩
    | some frame =>
      dsimp only
      rw [bind_eq hS, isBound_eq hS]
      cases hbinding : S.binding? k t.text with
      | some v =>
        refine ⟨L, hrec, List.prefix_append _ _, fun name span heq => ?_⟩
        cases heq
        exact ⟨_, [], rfl, hrec.found k t.text v hbinding, rfl, rfl⟩
      | none =>
        exact hrec.add hS (by rwa [hrec.frames]) (d := ⟨k, t.text, none, t.span⟩) rfl hbinding
          ⟨collection, index, frame, rfl⟩ rfl ((slotCount_insert S _ _).trans hrec.slots)
          ((hidden_insert S _ _).trans hrec.hidden) (List.append_nil _)

theorem Notes.frame {x : Framing α} (hx : Notes L.frames L.enter M x) :
    Notes k L M ((keeper env).frame x) where
  returns := .frame env hx.returns
  grows := (Ledger.Grows.enter L).trans hx.grows
  runs S p hS hrec := by
    have hruns := hx.runs S.enter p (congrArg some hrec.frames) hrec.enter
    rw [run_frame]
    rcases hrun : x.run.run (S.enter, p) with ⟨e | a, U, q⟩ <;> rw [hrun] at hruns
    · obtain ⟨N, hN, hstops⟩ := hruns
      exact ⟨N, hN.exit, hstops⟩
    · exact hruns.exit

theorem Notes.expr (e : Expr) : Notes k L L (exprOver env (keeper env).read e) :=
  .neutral (fun S => expr_reads S e) fun S => lower_neutral S e

theorem Notes.assign (target value : Expr) :
    Notes k L L (assignOver env (keeper env).read (keeper env).assigned target value) :=
  .neutral (fun S => assign_reads S target value) fun S => lowerAssign_neutral S target value

mutual

/-- A statement makes its declarations in order, as far as it comes. -/
theorem stmtOver_notes : (s : Stmt) → ∀ {k : Nat} {L : Ledger}, k < L.frames → L.Placed →
    Notes k L (s.ledger k L) (stmtOver (keeper env) env s)
  | .block ⟨body, _⟩, _, L, _, hL => by
    simp only [stmtOver, Stmt.ledger]
    exact .frame (stmtsOver_notes body [] (Nat.lt_succ_self _) ((Ledger.Grows.enter L).placed hL))
  | .expr e, _, _, _, _ => by
    simp only [stmtOver, Stmt.ledger]
    exact (Notes.expr e).bind fun _ => .pure _
  | .var name init, k, L, hk, _ => by
    have hdeclare (value : Code) : Notes k L (L.declare k name) (do
        return value ++ [Instruction.setVariable (.ofLocal (← (keeper env).declare name))]) :=
      (Notes.declare hk name).bind fun _ => .pure _
    simp only [stmtOver, Stmt.ledger]
    cases init with
    | none => exact (Notes.pure _).bind hdeclare
    | some e => exact (Notes.expr e).bind hdeclare
  | .assign target value, _, _, _, _ => by
    simp only [stmtOver, Stmt.ledger]
    exact .assign target value
  | .return_ none _, _, _, _, _ => by
    simp only [stmtOver, Stmt.ledger]
    exact .pure _
  | .return_ (some e) _, _, _, _, _ => by
    simp only [stmtOver, Stmt.ledger]
    exact (Notes.expr e).bind fun _ => .pure _
  | .if_ none body _ _, _, _, hk, hL => by
    simp only [stmtOver, Stmt.ledger]
    exact (stmtOver_notes body hk hL).map
  | .if_ (some c) body none span, _, _, hk, hL => by
    simp only [stmtOver, Stmt.ledger]
    exact (Notes.expr c).bind fun _ => (stmtOver_notes body hk hL).map.bind fun _ =>
      (Notes.lift (.ofExcept fun _ => Branch.neutral_of_distance)).bind fun _ => .pure _
  | .if_ (some c) body (some arm) span, _, _, hk, hL => by
    have hbody := stmtOver_notes body hk hL
    have harm := stmtOver_notes arm (Nat.lt_of_lt_of_le hk hbody.grows.frames)
      (hbody.grows.placed hL)
    simp only [stmtOver, Stmt.ledger]
    exact (Notes.expr c).bind fun _ => hbody.map.bind fun _ =>
      (Notes.lift (.ofExcept fun _ => Branch.neutral_of_distance)).bind fun _ =>
        harm.map.bind fun _ =>
          (Notes.lift (.ofExcept fun _ => Branch.neutral_of_distance)).bind fun _ => .pure _
  | .while_ c body, _, _, hk, hL => by
    simp only [stmtOver, Stmt.ledger]
    exact (Notes.expr c).bind fun _ => (stmtOver_notes body hk hL).map.bind fun _ =>
      .lift (.ofExcept fun _ => loopCode_neutral)
  | .doWhile body c, _, _, hk, hL => by
    simp only [stmtOver, Stmt.ledger]
    exact (stmtOver_notes body hk hL).map.bind fun _ => (Notes.expr c).bind fun _ =>
      (Notes.lift (.ofExcept fun _ => Branch.neutral_of_distance)).bind fun _ => .pure _
  | .foreach element collection body, _, L, _, hL => by
    have hindex : Notes L.frames L.enter _ ((keeper env).hidden "index") :=
      .hide (Nat.lt_succ_self L.frames) "index" (hL.free _)
    have hlast : Notes L.frames (L.enter.hide L.frames "index") _ ((keeper env).hidden "max") :=
      .hide (Nat.lt_succ_self L.frames) "max" (hL.free_max _)
    have helement (index : UInt16) : Notes L.frames
        ((L.enter.hide L.frames "index").hide L.frames "max") (L.loop element)
        ((keeper env).element element collection index) :=
      .element (Nat.lt_succ_self L.frames) element collection index
    have hbody := stmtOver_notes body (Nat.lt_succ_self L.frames) ((L.loop_grows element).placed hL)
    simp only [stmtOver, Stmt.ledger]
    exact .frame (hindex.bind fun _ => hlast.bind fun _ => (Notes.expr collection).bind fun _ =>
      (helement _).bind fun _ => hbody.map.bind fun _ =>
        (Notes.lift (.ofExcept fun _ => loopCode_neutral)).bind fun _ => .pure _)
  | .classDecl _, _, _, _, _ | .property _, _, _, _, _ | .subroutine _, _, _, _, _
  | .global _, _, _, _, _ => by
    simp only [stmtOver, Stmt.ledger]
    exact .throw trivial (.refl _)

theorem stmtsOver_notes : (ss : List Stmt) → (acc : Code) → ∀ {k : Nat} {L : Ledger},
    k < L.frames → L.Placed →
    Notes k L (Stmt.ledgerAll k ss L) (stmtsOver (keeper env) env acc ss)
  | [], acc, _, _, _, _ => by
    simp only [stmtsOver, Stmt.ledgerAll]
    exact .pure _
  | s :: ss, acc, _, _, hk, hL => by
    have hs := stmtOver_notes s hk hL
    simp only [stmtsOver, Stmt.ledgerAll]
    exact hs.map.bind fun _ => stmtsOver_notes ss _ (Nat.lt_of_lt_of_le hk hs.grows.frames)
      (hs.grows.placed hL)

end

theorem seed_notes (env : Env) (isMethod : Bool) :
    Notes 0 {} (if isMethod then Ledger.hide {} 0 "this" else {})
      ((keeper env).seed isMethod) := by
  cases isMethod with
  | false => exact .pure ()
  | true => exact (Notes.hide Nat.one_pos "this" List.not_mem_nil).map

theorem declareAll_notes (env : Env) : (ps : List Token) → ∀ {L : Ledger}, 0 < L.frames →
    Notes 0 L (ps.foldl (·.declare 0 ·) L) ((keeper env).declareAll ps)
  | [], _, _ => .pure ()
  | p :: ps, _, hk => (Notes.declare hk p).bind fun _ => declareAll_notes env ps hk

theorem start_notes (env : Env) (ps : List Token) (isMethod : Bool) :
    Notes 0 {} (.start ps isMethod) ((keeper env).start ps isMethod) := by
  have hseed := seed_notes env isMethod
  cases ps with
  | nil => exact hseed
  | cons p ps =>
    have hall := hseed.bind fun _ =>
      declareAll_notes env (p :: ps) (Nat.lt_of_lt_of_le Nat.one_pos hseed.grows.frames)
    simp only [Keeper.start]
    split
    · exact .throw trivial hall.grows
    · exact hall

/-- A body makes its declarations in order, as far as it comes. -/
theorem subroutineOver_notes (env : Env) (s : Subroutine) :
    Notes 0 {} (Stmt.ledgerAll 0 s.body.statements (.start s.parameters env.owner.isSome))
      (subroutineOver (keeper env) env s) := by
  have hstart := start_notes env s.parameters env.owner.isSome
  have hk := Nat.lt_of_lt_of_le Nat.one_pos hstart.grows.frames
  have hplaced := hstart.grows.placed fun d hd => by cases hd
  have hslots (M : Ledger) : Notes 0 M M (keeper env).slots :=
    ⟨(returns_tracks env).slots, .refl M, fun _ _ _ hS => hS⟩
  exact hstart.bind fun _ => (stmtsOver_notes _ [] hk hplaced).bind fun _ => (hslots _).bind
    fun _ => .lift (.ofExcept fun _ => Draft.finish_neutral)

theorem run_ofExcept_ok {x : Except CompileError α} {a : α} {s t : Scopes × Pool}
    (h : (liftM (Lower.ofExcept x) : Framing α).run.run s = (.ok a, t)) : x = .ok a ∧ s = t := by
  cases x with
  | ok b =>
    cases h
    exact ⟨rfl, rfl⟩
  | error e => cases h

/-- A body that comes to the end has no more slots than operands can address. -/
theorem subroutineOver_slots {s : Subroutine} {S U : Scopes} {p q : Pool} {code : Code}
    (h : (subroutineOver (keeper env) env s).run.run (S, p) = (.ok code, U, q)) :
    U.slotCount ≤ Draft.maxLocals := by
  obtain ⟨_, u, -, h⟩ := run_bind_ok h
  obtain ⟨body, u', -, h⟩ := run_bind_ok h
  obtain ⟨n, u'', hslots, h⟩ := run_bind_ok h
  cases hslots
  obtain ⟨hfinish, rfl⟩ := run_ofExcept_ok h
  unfold Draft.finish at hfinish
  split at hfinish
  · cases hfinish
  · next hle => exact Nat.le_of_not_lt hle

end Framing

/-! Slots. -/

namespace Scopes

variable {S U : Scopes} {all made : List Declaration}

/-- Declarations with slots of their own, none of which looks like a global. -/
structure Apart (U : Scopes) (all : List Declaration) : Prop where
  different : all.Pairwise fun d d' => ∀ i j, U.binding? d.frame d.name = some (.slot i) →
    U.binding? d'.frame d'.name = some (.slot j) → Slot.ofLocal i ≠ Slot.ofLocal j
  locals : ∀ d ∈ all, ∀ i, U.binding? d.frame d.name = some (.slot i) →
    (Slot.ofLocal i).isGlobal = false

/-- The slot of a declaration has its number. -/
theorem Holds.number (h : U.Holds all) (hcount : U.slotCount ≤ Draft.maxLocals) {d : Declaration}
    (hd : d ∈ all) {i : UInt16} (hi : U.binding? d.frame d.name = some (.slot i)) :
    d.slot? = some i.toNat ∧ i.toNat < 0x8000 := by
  obtain ⟨v, hv, hbinds⟩ := h.bound d hd
  cases hi.symm.trans hv
  unfold Declaration.Binds at hbinds
  cases hslot : d.slot? with
  | none =>
    rw [hslot] at hbinds
    obtain ⟨_, _, _, hbinds⟩ := hbinds
    cases hbinds
  | some n =>
    rw [hslot] at hbinds
    cases hbinds
    have hn : n < U.slotCount := by
      rw [← List.mem_range, ← h.numbers]
      exact List.mem_filterMap.mpr ⟨d, hd, hslot⟩
    unfold Draft.maxLocals at hcount
    have htoNat : (UInt16.ofNat (min n 65535)).toNat = n := by
      rw [UInt16.toNat_ofNat_of_lt' (by simp only [UInt16.size]; omega)]
      omega
    exact ⟨congrArg some htoNat.symm, by omega⟩

theorem Holds.apart (h : U.Holds all) (hcount : U.slotCount ≤ Draft.maxLocals) : U.Apart all where
  different := by
    have hnodup : (all.filterMap (·.slot?)).Nodup := by
      rw [h.numbers]
      exact List.nodup_range
    refine (List.pairwise_filterMap.mp hnodup).imp_of_mem fun hd hd' hne i j hi hj heq => ?_
    cases heq
    exact hne _ (h.number hcount hd hi).1 _ (h.number hcount hd' hj).1 rfl
  locals d hd i hi := Slot.isGlobal_ofLocal (h.number hcount hd hi).2

/-- What is made of the declarations `all` of a body, by what it comes to: all of them, with slots
of their own; all before one whose name is taken in its frame; or, with another error, any front
part. -/
def Accounts (U : Scopes) (all made : List Declaration) : Except CompileError Code → Prop
  | .ok _ => made = all ∧ U.Apart all
  | .error (.duplicateVariable name span) => ∃ d rest, all = made ++ d :: rest ∧
      d.key ∈ made.map (·.key) ∧ d.name = name ∧ d.span = span
  | .error _ => made <+: all

theorem Accounts.of_stops {L M : Ledger} {e : CompileError} (h : L.Stops M e) :
    U.Accounts M.made L.made (.error e) := by
  cases e with
  | duplicateVariable name span => exact h.taken name span rfl
  | _ => exact h.made

end Scopes

/-- The chain of frames is lexical scoping. A body is lowered as with an environment in which a name
means what the innermost frame says that has it by then, or else a global. Declarations are made in
order, each name once in its frame, and a name that is taken is the error that stops there; when a
body comes to the end, all have slots of their own that no global has. Whatever a statement comes
to, it leaves the current frame as it was, and an expression leaves all frames as they were. -/
theorem lowerSubroutine_lexical (env : Env) (s : Subroutine) :
    lowerSubroutine env s = lexicalSubroutine env s ∧
    (∀ p, ∃ r U q made,
      (subroutineOver (Framing.keeper env) env s).run.run (.start, p) = (r, U, q) ∧
      (lowerSubroutine env s).run.run p = (r, q) ∧
      U.Holds made ∧ U.Accounts (s.declarations env.owner.isSome) made r) ∧
    (∀ (t : Stmt) S p, ∃ r U q,
      (stmtOver (Framing.keeper env) env t).run.run (S, p) = (r, U, q) ∧
      (lowerStmt env S t).run.run p = (r.map (·, U), q) ∧ U.current = S.current) ∧
    ∀ (e : Expr) S p, ∃ r q,
      (exprOver env (Framing.keeper env).read e).run.run (S, p) = (r, S, q) ∧
      (lower env S e).run.run p = (r, q) := by
  refine ⟨(lexicalSubroutine_eq env s).symm, fun p => ?_, fun t S p => ?_, fun e S p => ?_⟩
  · obtain ⟨f, hruns, hlower⟩ := subroutineOver_tracks (Framing.runs_tracks env) s
    have hnotes := (Framing.subroutineOver_notes env s).runs .start p rfl Scopes.start_records
    have hruns := hruns .start p
    rcases hrun : (subroutineOver (Framing.keeper env) env s).run.run (.start, p) with
      ⟨e | code, U, q⟩ <;> rw [hrun] at hnotes hruns
    · obtain ⟨N, hN, hstops⟩ := hnotes
      refine ⟨_, U, q, N.made, rfl, ?_, hN.toHolds, .of_stops hstops⟩
      rw [hlower, map_eq_pure_bind, run_bind, hruns]
      rfl
    · have hcount := Framing.subroutineOver_slots hrun
      refine ⟨_, U, q, _, rfl, ?_, hnotes.toHolds, rfl, hnotes.toHolds.apart hcount⟩
      rw [hlower, map_eq_pure_bind, run_bind, hruns]
      rfl
  · exact ⟨_, _, _, rfl, stmtOver_tracks (Framing.runs_tracks env) t S p,
      (stmtOver_tracks (Framing.returns_tracks env) t S p).current⟩
  · exact ⟨_, _, Framing.expr_reads S e p, rfl⟩

end Lss
