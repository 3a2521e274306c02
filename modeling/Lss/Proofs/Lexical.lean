import Lss.Proofs.Hygienic
import Lss.Proofs.Mirrored

/-!
# Lexical scoping

Names kept the ordinary way: an environment of what they mean, which a statement gets from outside
and which is had again behind a block. A name means what the innermost frame says that has it by
then, and the element of a loop means an access to what the collection means where the loop stands.
Lowering with the chain of frames is lowering with such an environment, to the same code, errors
and tables.
-/
namespace Lss

open Lower Scopes

structure Meaning where
  /-- The slot that an assignment sets. Elements of loops cannot be assigned to. -/
  slot? : Option UInt16
  read : Lower Code

/-- What names mean, innermost frame first, and in a frame the latest first. -/
abbrev Meanings := List (List (String × Meaning))

structure Lexicon where
  names : Meanings := [[]]
  slots : Nat := 0
  hidden : Nat := 0

abbrev Naming := StateT Lexicon Lower

namespace Meanings

def find? (ρ : Meanings) (name : String) : Option Meaning := ρ.findSome? (·.lookup name)

def read (env : Env) (ρ : Meanings) (t : Token) : Lower Code :=
  match ρ.find? t.text with
  | some meaning => meaning.read
  | none => do return [.getVariable (← readGlobal env t)]

def assigned (env : Env) (ρ : Meanings) (t : Token) : Lower Slot :=
  match ρ.find? t.text with
  | some ⟨some i, _⟩ => pure (.ofLocal i)
  | some ⟨none, _⟩ => throw (.notAssignable t.span)
  | none => readGlobal env t

def declares (ρ : Meanings) (name : String) : Bool := ρ.head?.any (·.lookup name |>.isSome)

def insert (ρ : Meanings) (name : String) (meaning : Meaning) : Meanings :=
  ρ.modifyHead ((name, meaning) :: ·)

end Meanings

namespace Meaning

def ofSlot (i : UInt16) : Meaning := ⟨some i, pure [.getVariable (.ofLocal i)]⟩

/-- The element of a collection at a counter, where the names of the collection are read so. -/
def ofElement (env : Env) (read : Token → Lower Code) (collection : Expr) (index : UInt16) :
    Meaning where
  slot? := none
  read := do
    let code ← lowerExpr env read collection
    return code ++ [Instruction.getVariable (.ofLocal index), .getElement]

end Meaning

namespace Lexicon

def nextSlot (ρ : Lexicon) : UInt16 := UInt16.ofNat (min ρ.slots 65535)

def withSlot (ρ : Lexicon) (name : String) : Lexicon :=
  { ρ with names := ρ.names.insert name (.ofSlot ρ.nextSlot), slots := ρ.slots + 1 }

def keeper (env : Env) : Keeper Naming where
  read t := fun ρ => (·, ρ) <$> ρ.names.read env t
  assigned t := fun ρ => (·, ρ) <$> ρ.names.assigned env t
  declare t := fun ρ =>
    if ρ.names.declares t.text then throw (.duplicateVariable t.text t.span)
    else pure (ρ.nextSlot, ρ.withSlot t.text)
  hidden purpose := fun ρ =>
    let number := ρ.hidden + 1
    pure (ρ.nextSlot, { ρ.withSlot ("$" ++ purpose ++ toString number) with hidden := number })
  element name collection index := fun ρ =>
    match ρ.names.tail with
    | [] => throw (.internal "foreach outside a subroutine frame")
    | outer =>
      if ρ.names.declares name.text then throw (.duplicateVariable name.text name.span)
      else
        let meaning := .ofElement env (Meanings.read env outer) collection index
        pure ((), { ρ with names := ρ.names.insert name.text meaning })
  frame x := fun ρ => do
    let (a, τ) ← x { ρ with names := [] :: ρ.names }
    return (a, { τ with names := ρ.names })
  slots := fun ρ => pure (ρ.slots, ρ)

end Lexicon

def lexicalSubroutine (env : Env) (s : Subroutine) : Lower Code :=
  (·.1) <$> (subroutineOver (Lexicon.keeper env) env s).run {}

namespace Scopes

variable {S : Scopes} {k : Nat}

theorem declare_eq (h : S.current = some k) (name : String) :
    S.declare name = if S.isBound name then none
      else some (S.nextSlot,
        { S with slotCount := S.slotCount + 1 }.insert name (.slot S.nextSlot)) := by
  have hcurrent : S.current.isNone = false := by rw [h, Option.isNone_some]
  rw [Scopes.declare, hcurrent, Bool.false_or]

theorem bind_eq (h : S.current = some k) (name : String) (v : Variable) :
    S.bind name v = if S.isBound name then none else some (S.insert name v) := by
  have hcurrent : S.current.isNone = false := by rw [h, Option.isNone_some]
  rw [Scopes.bind, hcurrent, Bool.false_or]

end Scopes

/-! The environment that a chain of frames shows. -/

theorem Scopes.hidden_insert (S : Scopes) (name : String) (v : Variable) :
    (S.insert name v).hidden = S.hidden := by
  unfold insert
  split <;> rfl

def Variable.meaning (env : Env) (S : Scopes) : Variable → Meaning
  | .slot i => .ofSlot i
  | .element collection index outer =>
    .ofElement env (fun t => readFrom env S outer t) collection index

def Meanings.ShownBy (env : Env) (S : Scopes) : Nat → Meanings → Prop
  | _, [] => False
  | k, top :: rest => ∃ f, S.frames[k]? = some f ∧
      (∀ name, top.lookup name = f.bindings[name]?.map (·.meaning env S)) ∧
      match f.parent with
      | none => rest = []
      | some p => ShownBy env S p rest

section

variable {env : Env} {S T : Scopes} {i j k : Nat} {ρ : Meanings} {name : String} {v : Variable}

theorem Meanings.find?_shownBy (hS : S.At i) (h : ρ.ShownBy env S k) (name : String) :
    ρ.find? name = (S.resolveFrom name k).map (·.meaning env S) := by
  induction ρ generalizing k with
  | nil => cases h
  | cons top rest ih =>
    obtain ⟨f, hf, htop, hrest⟩ := h
    rw [find?, List.findSome?_cons, htop, resolveFrom, hf]
    dsimp only
    cases f.bindings[name]? with
    | some v => rfl
    | none =>
      cases hparent : f.parent with
      | none =>
        rw [hparent] at hrest
        cases hrest
        rfl
      | some p =>
        rw [hparent] at hrest
        dsimp only
        rw [if_pos ((hS.sited k f hf).parent p hparent)]
        exact ih hrest

theorem Meanings.read_shownBy (hS : S.At i) (h : ρ.ShownBy env S k) (t : Token) :
    ρ.read env t = readFrom env S k t := by
  unfold read
  rw [find?_shownBy hS h]
  cases hv : S.resolveFrom t.text k with
  | none =>
    rw [readFrom, hv]
    rfl
  | some v =>
    cases v with
    | slot i =>
      rw [readFrom, hv]
      rfl
    | element collection index outer => exact (readFrom_element hS hv).symm

theorem Meanings.assigned_shownBy (hS : S.At k) (h : ρ.ShownBy env S k) (t : Token) :
    ρ.assigned env t = assignedSlot env S t := by
  unfold assigned assignedSlot
  rw [find?_shownBy hS h, resolve, hS.current, Option.bind_some]
  rcases S.resolveFrom t.text k with _ | i | _ <;> rfl

/-- What is bound in a frame means the same where the frames before it are the same. -/
theorem Variable.meaning_congr (hS : S.At i) (hT : T.At j) (hv : v.Outside k)
    (h : ∀ n < k, S.frames[n]? = T.frames[n]?) : v.meaning env S = v.meaning env T := by
  cases v with
  | slot i => rfl
  | element collection index outer =>
    have houter : outer < k := hv collection index outer rfl
    have hread : (fun t => readFrom env S outer t) = fun t => readFrom env T outer t := by
      funext t
      have hbelow : ∀ n ≤ outer, S.frames[n]? = T.frames[n]? := fun n hn =>
        h n (Nat.lt_of_le_of_lt hn houter)
      exact readFrom_congr hS hT (resolveFrom_congr t.text hbelow) fun n hn _ =>
        hbelow n (Nat.le_of_lt hn)
    simp only [meaning, hread]

theorem Scopes.At.outside (hS : S.At i) {f : Frame} (hf : S.frames[k]? = some f)
    (hv : f.bindings[name]? = some v) : v.Outside k := by
  rintro collection index outer rfl
  exact (hS.sited k f hf).element name collection index outer hv

theorem Meanings.shownBy_congr (hS : S.At i) (hT : T.At j)
    (h : ∀ n ≤ k, S.frames[n]? = T.frames[n]?) (hρ : ρ.ShownBy env S k) : ρ.ShownBy env T k := by
  induction ρ generalizing k with
  | nil => exact hρ
  | cons top rest ih =>
    obtain ⟨f, hf, htop, hrest⟩ := hρ
    refine ⟨f, (h k (Nat.le_refl k)).symm.trans hf, fun name => ?_, ?_⟩
    · rw [htop]
      cases hv : f.bindings[name]? with
      | none => rfl
      | some v =>
        exact congrArg some (Variable.meaning_congr hS hT (hS.outside hf hv) fun n hn =>
          h n (Nat.le_of_lt hn))
    · cases hparent : f.parent with
      | none =>
        rw [hparent] at hrest
        exact hrest
      | some p =>
        rw [hparent] at hrest
        have hp : p < k := (hS.sited k f hf).parent p hparent
        exact ih (fun n hn => h n (Nat.le_trans hn (Nat.le_of_lt hp))) hrest

theorem Meanings.shownBy_insert (hS : S.At k) (hv : v.Outside k) (hρ : ρ.ShownBy env S k) :
    (ρ.insert name (v.meaning env S)).ShownBy env (S.insert name v) k := by
  have hT : (S.insert name v).At k := (Leads.insert hS hv).here
  have hbelow : ∀ n < k, S.frames[n]? = (S.insert name v).frames[n]? := fun n hn =>
    ((Leads.insert hS hv).others n (Nat.lt_trans hn hS.bound) (Nat.ne_of_lt hn)).symm
  cases ρ with
  | nil => cases hρ
  | cons top rest =>
    obtain ⟨f, hf, htop, hrest⟩ := hρ
    refine ⟨{ f with bindings := f.bindings.insert name v }, ?_, fun other => ?_, ?_⟩
    · rw [frames_insert hS.current, hf]
      simp
    · rw [List.lookup_cons, htop, Std.TreeMap.getElem?_insert]
      by_cases hname : name = other
      · subst hname
        simp [Variable.meaning_congr hS hT hv hbelow]
      · rw [if_neg (by simpa using hname)]
        have hne : (other == name) = false := by simpa using Ne.symm hname
        rw [hne]
        cases hw : f.bindings[other]? with
        | none => rfl
        | some w =>
          exact congrArg some (Variable.meaning_congr hS hT (hS.outside hf hw) hbelow)
    · dsimp only
      cases hparent : f.parent with
      | none =>
        rw [hparent] at hrest
        exact hrest
      | some p =>
        rw [hparent] at hrest
        have hp : p < k := (hS.sited k f hf).parent p hparent
        exact shownBy_congr hS hT (fun n hn => hbelow n (Nat.lt_of_le_of_lt hn hp)) hrest

theorem Meanings.shownBy_enter (hS : S.At k) (hρ : ρ.ShownBy env S k) :
    ShownBy env S.enter S.frames.size ([] :: ρ) := by
  refine ⟨_, frames_enter_self S, fun name => by simp, ?_⟩
  rw [hS.current]
  exact shownBy_congr hS hS.enter (fun n hn =>
    (frames_enter S (Nat.lt_of_le_of_lt hn hS.bound)).symm) hρ

theorem Meanings.declares_shownBy (hS : S.At k) (hρ : ρ.ShownBy env S k) (name : String) :
    ρ.declares name = S.isBound name := by
  cases ρ with
  | nil => cases hρ
  | cons top rest =>
    obtain ⟨f, hf, htop, -⟩ := hρ
    rw [declares, isBound, frame?, hS.current, Option.bind_some, hf]
    simp [htop]

theorem Meanings.tail_shownBy (hS : S.At k) (hρ : ρ.ShownBy env S k) :
    match S.enclosing with
    | none => ρ.tail = []
    | some p => p < k ∧ ShownBy env S p ρ.tail := by
  cases ρ with
  | nil => cases hρ
  | cons top rest =>
    obtain ⟨f, hf, -, hrest⟩ := hρ
    rw [enclosing, frame?, hS.current, Option.bind_some, hf, Option.bind_some]
    cases hparent : f.parent with
    | none =>
      rw [hparent] at hrest
      exact hrest
    | some p =>
      rw [hparent] at hrest
      exact ⟨(hS.sited k f hf).parent p hparent, hrest⟩

end

/-! Lowering with the environment that a chain shows. -/

/-- An environment that says what the current frame of a chain does, and counts the same. -/
structure Lexicon.Agrees (env : Env) (k : Nat) (S : Scopes) (ρ : Lexicon) : Prop where
  here : S.At k
  shown : ρ.names.ShownBy env S k
  slots : ρ.slots = S.slotCount
  hidden : ρ.hidden = S.hidden

namespace Lexicon

variable {env : Env} {k : Nat} {S : Scopes} {ρ : Lexicon}

theorem Agrees.nextSlot (h : ρ.Agrees env k S) : ρ.nextSlot = S.nextSlot := by
  rw [Lexicon.nextSlot, Scopes.nextSlot, h.slots]

theorem Agrees.insert (h : ρ.Agrees env k S) {v : Variable} (hv : v.Outside k) (name : String) :
    Lexicon.Agrees env k (S.insert name v)
      { ρ with names := ρ.names.insert name (v.meaning env S) } := by
  refine ⟨(Leads.insert h.here hv).here, Meanings.shownBy_insert h.here hv h.shown, ?_, ?_⟩
  · rw [slotCount_insert]
    exact h.slots
  · rw [hidden_insert]
    exact h.hidden

/-- Counts do not bear on what names stand for. -/
theorem Agrees.count (h : ρ.Agrees env k S) {n m : Nat} (hn : ρ.slots ≤ n) :
    Lexicon.Agrees env k { S with slotCount := n, hidden := m }
      { ρ with slots := n, hidden := m } := by
  have hcount : Leads k S { S with slotCount := n, hidden := m } := .count h.here (h.slots ▸ hn)
  exact ⟨hcount.here, Meanings.shownBy_congr h.here hcount.here (fun _ _ => rfl) h.shown, rfl, rfl⟩

theorem Agrees.withSlot (h : ρ.Agrees env k S) (name : String) :
    (ρ.withSlot name).Agrees env k
      ({ S with slotCount := S.slotCount + 1 }.insert name (.slot S.nextSlot)) := by
  have hcount := h.count (n := ρ.slots + 1) (m := ρ.hidden) (Nat.le_succ _)
  have hinsert := hcount.insert (v := .slot S.nextSlot) nofun name
  rw [h.slots, h.hidden] at hinsert
  rw [Lexicon.withSlot, h.nextSlot, h.slots, h.hidden]
  exact hinsert

/-- A hidden name takes a number and a slot. -/
theorem Agrees.declareHidden (h : ρ.Agrees env k S) (purpose : String) :
    Lexicon.Agrees env k (S.declareHidden purpose).2
      { ρ.withSlot ("$" ++ purpose ++ toString (ρ.hidden + 1)) with hidden := ρ.hidden + 1 } := by
  obtain ⟨names, slots, hidden⟩ := ρ
  obtain rfl : slots = S.slotCount := h.slots
  obtain rfl : hidden = S.hidden := h.hidden
  have hcount := h.count (n := S.slotCount) (m := S.hidden + 1) (Nat.le_refl _)
  exact hcount.withSlot ("$" ++ purpose ++ toString (S.hidden + 1))

end Lexicon

/-- A computation that does with an environment what lowering does with a chain of frames that shows
it. -/
def Naming.Does (env : Env) {α : Type} (x : Naming α) (f : Scopes → Lower (α × Scopes)) : Prop :=
  ∀ k S ρ, Lexicon.Agrees env k S ρ → ∀ p, match (f S).run.run p with
    | (.ok (a, U), q) => Leads k S U ∧
        ∃ τ, (x ρ).run.run p = (.ok (a, τ), q) ∧ Lexicon.Agrees env k U τ
    | (.error e, q) => (x ρ).run.run p = (.error e, q)

namespace Naming

variable {env : Env} {α : Type}

/-- A computation that leaves the environment as it is, and for the rest is one of lowering. -/
def Reads (ρ : Lexicon) (x : Naming α) (f : Lower α) : Prop := x ρ = (·, ρ) <$> f

theorem reads_mirrors (ρ : Lexicon) : Mirrors (fun x f => Reads ρ x f) where
  pure _ := rfl
  lift := by
    intro _ f _
    exact (map_eq_pure_bind (·, ρ) f).symm
  throw _ := rfl
  throw_bind _ := rfl
  bind := by
    intro _ _ x f y g hx hy
    change x ρ >>= (fun r => y r.1 r.2) = _
    rw [hx, bind_map_left, map_bind]
    exact bind_congr hy

theorem Reads.does {x : Naming α} {f : Scopes → Lower α}
    (h : ∀ k S ρ, Lexicon.Agrees env k S ρ → Reads ρ x (f S)) :
    Does env x fun S => (·, S) <$> f S := by
  intro k S ρ hρ p
  have hx := h k S ρ hρ
  dsimp only [Reads] at hx ⊢
  rw [hx]
  simp only [map_eq_pure_bind, Lower.run_bind]
  rcases (f S).run.run p with ⟨e | a, q⟩
  · rfl
  · exact ⟨.refl hρ.here, ρ, rfl, hρ⟩

variable {k : Nat} {S : Scopes} {ρ : Lexicon}

theorem read_reads (hρ : ρ.Agrees env k S) (t : Token) :
    Reads ρ ((Lexicon.keeper env).read t) (readName env S t) := by
  unfold readName
  rw [hρ.here.current]
  exact congrArg ((·, ρ) <$> ·) (Meanings.read_shownBy hρ.here hρ.shown t)

theorem assigned_reads (hρ : ρ.Agrees env k S) (t : Token) :
    Reads ρ ((Lexicon.keeper env).assigned t) (assignedSlot env S t) :=
  congrArg ((·, ρ) <$> ·) (Meanings.assigned_shownBy hρ.here hρ.shown t)

theorem expr_reads (hρ : ρ.Agrees env k S) (e : Expr) :
    Reads ρ (exprOver env (Lexicon.keeper env).read e) (lower env S e) := by
  unfold lower
  rw [← exprOver_lower]
  exact exprOver_mirrors (reads_mirrors ρ) (read_reads hρ) e

theorem assign_reads (hρ : ρ.Agrees env k S) (target value : Expr) :
    Reads ρ
      (assignOver env (Lexicon.keeper env).read (Lexicon.keeper env).assigned target value)
      (lowerAssign env S target value) := by
  rw [← assignOver_lower]
  exact assignOver_mirrors (reads_mirrors ρ) (read_reads hρ) (assigned_reads hρ) target value

theorem Does.bind {β : Type} {x : Naming α} {f : Scopes → Lower (α × Scopes)} {y : α → Naming β}
    {g : α → Scopes → Lower (β × Scopes)} (hx : Does env x f) (hy : ∀ a, Does env (y a) (g a)) :
    Does env (x >>= y) fun S => f S >>= fun r => g r.1 r.2 := by
  intro k S ρ hρ p
  have hx := hx k S ρ hρ p
  have hxy (τ : Lexicon) : (x >>= y) τ = x τ >>= fun r => y r.1 r.2 := rfl
  rw [hxy]
  simp only [Lower.run_bind]
  rcases hf : (f S).run.run p with ⟨e | ⟨a, U⟩, q⟩ <;> rw [hf] at hx
  · rw [hx]
  · obtain ⟨hleads, τ, hx, hτ⟩ := hx
    rw [hx]
    have hy := hy a k U τ hτ q
    dsimp only
    rcases hg : (g a U).run.run q with ⟨e | ⟨b, V⟩, r⟩ <;> rw [hg] at hy
    · exact hy
    · obtain ⟨hleads', hy⟩ := hy
      exact ⟨hleads.trans hleads', hy⟩

/-- A frame of its own: behind it the frames around it show what they did. -/
theorem Does.frame {x : Naming α} {f : Scopes → Lower (α × Scopes)} (hx : Does env x f) :
    Does env ((Lexicon.keeper env).frame x)
      fun S => f S.enter >>= fun r => Pure.pure (r.1, r.2.exit) := by
  intro k S ρ hρ p
  have henter : Lexicon.Agrees env S.frames.size S.enter { ρ with names := [] :: ρ.names } :=
    ⟨hρ.here.enter, Meanings.shownBy_enter hρ.here hρ.shown, hρ.slots, hρ.hidden⟩
  have hx := hx _ _ _ henter p
  have hframe : (Lexicon.keeper env).frame x ρ =
      x { ρ with names := [] :: ρ.names } >>= fun r =>
        pure (r.1, { r.2 with names := ρ.names }) := rfl
  rw [hframe]
  simp only [Lower.run_bind]
  rcases hf : (f S.enter).run.run p with ⟨e | ⟨a, U⟩, q⟩ <;> rw [hf] at hx
  · rw [hx]
  · obtain ⟨hleads, τ, hx, hτ⟩ := hx
    rw [hx]
    have hexit := hleads.exit hρ.here
    refine ⟨hexit, _, rfl, hexit.here, ?_, hτ.slots, hτ.hidden⟩
    refine Meanings.shownBy_congr hρ.here hexit.here (fun n hn => ?_) hρ.shown
    have hlt : n < S.frames.size := Nat.lt_of_le_of_lt hn hρ.here.bound
    have hsize : S.enter.frames.size = S.frames.size + 1 := by simp [enter]
    rw [← frames_enter S hlt]
    exact (hleads.others n (by omega) (Nat.ne_of_lt hlt)).symm

theorem does_tracks (env : Env) :
    Tracks (Lexicon.keeper env) env (fun x f => Does env x f) where
  pure _ _ _ ρ hρ _ := ⟨.refl hρ.here, ρ, rfl, hρ⟩
  lift hf := Reads.does fun _ _ ρ _ => (reads_mirrors ρ).lift hf
  throw _ _ _ _ _ _ := rfl
  bind := Does.bind
  expr e := Reads.does fun _ _ _ hρ => expr_reads hρ e
  assign target value := Reads.does fun _ _ _ hρ => assign_reads hρ target value
  declare t k S ρ hρ p := by
    have hdeclare := declare_eq hρ.here.current t.text
    dsimp only [Lexicon.keeper]
    rw [Meanings.declares_shownBy hρ.here hρ.shown]
    cases hbound : S.isBound t.text with
    | true =>
      rw [hdeclare, hbound]
      rfl
    | false =>
      rw [hbound, if_neg Bool.false_ne_true] at hdeclare
      rw [hdeclare]
      exact ⟨.declare hρ.here hdeclare, _, congrArg (fun i => (Except.ok (i, _), p)) hρ.nextSlot,
        hρ.withSlot t.text⟩
  hidden purpose k S ρ hρ p :=
    ⟨.declareHidden hρ.here purpose, _,
      congrArg (fun i => (Except.ok (i, _), p)) hρ.nextSlot, hρ.declareHidden purpose⟩
  element name collection index k S ρ hρ p := by
    have htail := Meanings.tail_shownBy hρ.here hρ.shown
    dsimp only [Lexicon.keeper]
    cases hout : S.enclosing with
    | none =>
      rw [hout] at htail
      rw [htail]
      rfl
    | some outer =>
      rw [hout] at htail
      obtain ⟨hlt, htail⟩ := htail
      have hbind := bind_eq hρ.here.current name.text (.element collection index outer)
      have houtside : Variable.Outside k (.element collection index outer) := by
        rintro _ _ _ ⟨⟩
        exact hlt
      have hread : Meanings.read env ρ.names.tail = fun t => readFrom env S outer t :=
        funext (Meanings.read_shownBy hρ.here htail)
      cases hrest : ρ.names.tail with
      | nil =>
        rw [hrest] at htail
        cases htail
      | cons top rest =>
        rw [hrest] at hread
        dsimp only
        rw [Meanings.declares_shownBy hρ.here hρ.shown, hread]
        cases hbound : S.isBound name.text with
        | true =>
          rw [hbind, hbound]
          rfl
        | false =>
          rw [hbound, if_neg Bool.false_ne_true] at hbind
          rw [hbind]
          exact ⟨.bind hρ.here houtside hbind, _, rfl, hρ.insert houtside name.text⟩
  frame := Does.frame
  slots _ S ρ hρ _ := ⟨.refl hρ.here, ρ, by rw [← hρ.slots]; rfl, hρ⟩

end Naming

theorem Lexicon.start_agrees (env : Env) : Lexicon.Agrees env 0 .start {} where
  here := Scopes.start_at
  shown := ⟨{ parent := none }, rfl, fun name => by simp, rfl⟩
  slots := rfl
  hidden := rfl

/-- Lowering with a chain of frames and with an environment is the same, whatever the tables. -/
theorem lexicalSubroutine_eq (env : Env) (s : Subroutine) :
    lexicalSubroutine env s = lowerSubroutine env s := by
  obtain ⟨f, hdoes, hlower⟩ := subroutineOver_tracks (Naming.does_tracks env) s
  rw [hlower]
  funext p
  have hrun := hdoes 0 .start {} (Lexicon.start_agrees env) p
  change ((·.1) <$> subroutineOver (Lexicon.keeper env) env s {}).run.run p =
    ((·.1) <$> f .start).run.run p
  simp only [map_eq_pure_bind, Lower.run_bind]
  rcases hf : (f .start).run.run p with ⟨e | ⟨code, U⟩, q⟩ <;> rw [hf] at hrun
  · rw [hrun]
  · obtain ⟨-, τ, hrun, -⟩ := hrun
    rw [hrun]

end Lss
