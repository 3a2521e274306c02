import Lss.Proofs.EmitsBody
import Lss.Proofs.LoweredExpr

/-!
# Frames that lowering leaves alone

A statement opens frames of its own and binds names in them and in the current one. It comes back
to the current frame, and every other frame stays as it was. So what is seen from a frame below the
current one stays the same, whatever is declared in between.
-/
namespace Lss

/-- Frames lie inside earlier ones, and elements were bound further in than their collections are
looked up. -/
structure Frame.Sited (j : Nat) (f : Frame) : Prop where
  parent : ∀ p, f.parent = some p → p < j
  element : ∀ (name : String) collection index outer,
    f.bindings[name]? = some (.element collection index outer) → outer < j

def Variable.Outside (k : Nat) (v : Variable) : Prop :=
  ∀ collection index outer, v = .element collection index outer → outer < k

namespace Scopes

variable {s t u : Scopes} {k : Nat} {name : String} {v : Variable}

structure At (k : Nat) (s : Scopes) : Prop where
  current : s.current = some k
  bound : k < s.frames.size
  sited : ∀ (j : Nat) (f : Frame), s.frames[j]? = some f → f.Sited j

/-- From `s` to `u` names were bound in frame `k`, and frames were opened and left. -/
structure Leads (k : Nat) (s u : Scopes) : Prop where
  here : u.At k
  size : s.frames.size ≤ u.frames.size
  slots : s.slotCount ≤ u.slotCount
  parents : ∀ j < s.frames.size, u.frames[j]?.map (·.parent) = s.frames[j]?.map (·.parent)
  others : ∀ j < s.frames.size, j ≠ k → u.frames[j]? = s.frames[j]?

theorem Leads.refl (h : s.At k) : Leads k s s :=
  ⟨h, Nat.le_refl _, Nat.le_refl _, fun _ _ => rfl, fun _ _ _ => rfl⟩

theorem Leads.trans (h : Leads k s t) (h' : Leads k t u) : Leads k s u where
  here := h'.here
  size := Nat.le_trans h.size h'.size
  slots := Nat.le_trans h.slots h'.slots
  parents j hj := (h'.parents j (Nat.lt_of_lt_of_le hj h.size)).trans (h.parents j hj)
  others j hj hne := (h'.others j (Nat.lt_of_lt_of_le hj h.size) hne).trans (h.others j hj hne)

theorem frames_insert (hk : s.current = some k) (name : String) (v : Variable) (j : Nat) :
    (s.insert name v).frames[j]? = s.frames[j]?.map fun f =>
      if k = j then { f with bindings := f.bindings.insert name v } else f := by
  unfold insert
  rw [hk]
  simp only [Array.getElem?_modify]
  split
  · rfl
  · simp

theorem current_insert (s : Scopes) (name : String) (v : Variable) :
    (s.insert name v).current = s.current := by
  unfold insert
  split <;> rfl

theorem Leads.insert (h : s.At k) (hv : v.Outside k) : Leads k s (s.insert name v) := by
  have hframes := frames_insert h.current name v
  refine ⟨⟨?_, ?_, fun j f hf => ?_⟩, ?_, ?_, fun j _ => ?_, fun j _ hne => ?_⟩
  · rw [current_insert, h.current]
  · unfold Scopes.insert
    rw [h.current]
    simpa using h.bound
  · rw [hframes] at hf
    obtain ⟨g, hg, rfl⟩ := Option.map_eq_some_iff.mp hf
    have hsited := h.sited j g hg
    by_cases hkj : k = j
    · subst hkj
      rw [if_pos rfl]
      refine ⟨hsited.parent, fun other collection index outer hbound => ?_⟩
      simp only [Std.TreeMap.getElem?_insert] at hbound
      split at hbound
      · cases hbound
        exact hv collection index outer rfl
      · exact hsited.element other collection index outer hbound
    · rw [if_neg hkj]
      exact hsited
  · unfold Scopes.insert
    rw [h.current]
    simp
  · exact Nat.le_of_eq (slotCount_insert s name v).symm
  · rw [hframes, Option.map_map]
    congr 1
    funext f
    simp only [Function.comp_apply]
    split <;> rfl
  · rw [hframes]
    simp [Ne.symm hne]

/-- Counting slots and hidden names moves no frame. -/
theorem Leads.count (h : s.At k) {n m : Nat} (hn : s.slotCount ≤ n) :
    Leads k s { s with slotCount := n, hidden := m } :=
  ⟨⟨h.current, h.bound, h.sited⟩, Nat.le_refl _, hn, fun _ _ => rfl, fun _ _ _ => rfl⟩

theorem Leads.declare (h : s.At k) {i : UInt16} (hd : s.declare name = some (i, u)) :
    Leads k s u := by
  unfold Scopes.declare at hd
  split at hd
  · cases hd
  · cases hd
    have hcount : Leads k s { s with slotCount := s.slotCount + 1 } := .count h (Nat.le_succ _)
    exact hcount.trans (.insert hcount.here nofun)

theorem Leads.declareHidden (h : s.At k) (purpose : String) :
    Leads k s (s.declareHidden purpose).2 := by
  have hcount : Leads k s { s with slotCount := s.slotCount + 1, hidden := s.hidden + 1 } :=
    .count h (Nat.le_succ _)
  exact hcount.trans (.insert hcount.here nofun)

theorem Leads.bind (h : s.At k) (hv : v.Outside k) (hb : s.bind name v = some u) :
    Leads k s u := by
  unfold Scopes.bind at hb
  split at hb
  · cases hb
  · cases hb
    exact .insert h hv

/-! Frames inside the current one. -/

theorem frames_enter (s : Scopes) {j : Nat} (hj : j < s.frames.size) :
    s.enter.frames[j]? = s.frames[j]? := by
  simp [enter, Array.getElem?_push, Nat.ne_of_lt hj]

theorem frames_enter_self (s : Scopes) :
    s.enter.frames[s.frames.size]? = some { parent := s.current } := by
  simp [enter]

theorem At.enter (h : s.At k) : s.enter.At s.frames.size := by
  refine ⟨rfl, by simp [Scopes.enter], fun j f hf => ?_⟩
  have hj : j < s.frames.size + 1 := by
    have := (Array.getElem?_eq_some_iff.mp hf).1
    simpa [Scopes.enter] using this
  rcases Nat.lt_succ_iff_lt_or_eq.mp hj with hlt | rfl
  · rw [frames_enter s hlt] at hf
    exact h.sited j f hf
  · rw [frames_enter_self] at hf
    cases hf
    refine ⟨fun p hp => ?_, fun name collection index outer hbound => by simp at hbound⟩
    rw [h.current] at hp
    cases hp
    exact h.bound

/-- Code inside a frame that was opened around it comes back to the frame outside. -/
theorem Leads.enclosing_eq (h : s.At k) (hu : Leads s.frames.size s.enter u) :
    u.enclosing = some k := by
  have hparent := hu.parents s.frames.size (by simp [enter])
  rw [frames_enter_self, Option.map_some] at hparent
  obtain ⟨f, hf, hparent⟩ := Option.map_eq_some_iff.mp hparent
  rw [enclosing, frame?, hu.here.current, Option.bind_some, hf, Option.bind_some, hparent,
    h.current]

theorem Leads.exit (h : s.At k) (hu : Leads s.frames.size s.enter u) : Leads k s u.exit := by
  have hsize : s.enter.frames.size = s.frames.size + 1 := by simp [enter]
  have hle := hu.size
  rw [hsize] at hle
  refine ⟨⟨hu.enclosing_eq h, ?_, hu.here.sited⟩, ?_, hu.slots, fun j hj => ?_, fun j hj _ => ?_⟩
  · exact Nat.lt_of_lt_of_le h.bound (Nat.le_of_succ_le hle)
  · exact Nat.le_of_succ_le hle
  · have := hu.parents j (by omega)
    rwa [frames_enter s hj] at this
  · have := hu.others j (by omega) (Nat.ne_of_lt hj)
    rwa [frames_enter s hj] at this

variable {element : Token} {collection : Expr} {index last : UInt16} {frame : Nat}
  {inside inner : Scopes}

/-- The head of a loop over a collection opens a frame around the element, and the names of the
collection are looked up from outside of it. -/
theorem Heads.leads (hs : s.At k) (h : s.Heads element collection index last frame inside inner) :
    frame = k ∧ Leads s.frames.size s.enter inside ∧ Leads s.frames.size inside inner := by
  have hfirst : Leads s.frames.size s.enter (s.enter.declareHidden "index").2 :=
    .declareHidden hs.enter "index"
  have hinside : Leads s.frames.size s.enter inside := by
    rw [h.inside_eq]
    exact hfirst.trans (.declareHidden hfirst.here "max")
  have hframe : frame = k :=
    Option.some.inj (h.enclosing_eq.symm.trans (hinside.enclosing_eq hs))
  refine ⟨hframe, hinside, .bind hinside.here ?_ h.bind_eq⟩
  intro collection' index' outer heq
  cases heq
  rw [hframe]
  exact hs.bound

end Scopes

open Scopes

section

variable {env : Env}

mutual

/-- A statement binds names in the current frame, and leaves every other frame alone. -/
theorem Stmt.Emits.leads {s u : Scopes} {st : Stmt} {code : Code} :
    Stmt.Emits env s st code u → ∀ {k : Nat}, s.At k → Leads k s u
  | .block h, _, hs => (h.leads hs.enter).exit hs
  | .expr _, _, hs | .assignLocal _ _ _, _, hs | .assignGlobal _ _ _ _, _, hs
  | .assignThisMember _ _ _ _, _, hs | .assignMember _ _ _ _, _, hs
  | .assignDynamicMember _ _ _ _, _, hs | .assignGame _ _, _, hs | .assignElement _ _ _, _, hs
  | .returnNothing, _, hs | .return_ _, _, hs => .refl hs
  | .varNothing hd, _, hs | .var _ hd, _, hs => .declare hs hd
  | .always h, _, hs | .if_ _ h, _, hs | .while_ _ h, _, hs | .doWhile h _, _, hs => h.leads hs
  | .ifElse _ h k, _, hs =>
    have hbody := h.leads hs
    hbody.trans (k.leads hbody.here)
  | .foreach hheads _ h, _, hs =>
    have ⟨_, hinside, hinner⟩ := hheads.leads hs
    ((hinside.trans hinner).trans (h.leads hinner.here)).exit hs

theorem Stmt.EmitsAll.leads {s u : Scopes} {ss : List Stmt} {code : Code} :
    Stmt.EmitsAll env s ss code u → ∀ {k : Nat}, s.At k → Leads k s u
  | .nil, _, hs => .refl hs
  | .cons h k, _, hs =>
    have hfirst := h.leads hs
    hfirst.trans (k.leads hfirst.here)

end

end

theorem Draft.declareAll_at {ps : List Token} {s u : Scopes} (hs : s.At 0)
    (h : declareAll s ps = .ok u) : u.At 0 := by
  induction ps generalizing s with
  | nil =>
    cases h
    exact hs
  | cons p ps ih =>
    unfold declareAll at h
    split at h
    · next hd => exact ih (Leads.declare hs hd).here h
    · cases h

theorem Scopes.start_at : Scopes.start.At 0 := by
  refine ⟨rfl, by decide, fun j f hf => ?_⟩
  simp only [start, enter, Array.getElem?_push, Array.size_empty] at hf
  split at hf
  · cases hf
    exact ⟨nofun, fun name collection index outer hbound => by simp at hbound⟩
  · simp at hf

/-- A body starts in the first frame. -/
theorem Draft.start_at {name : String} {ps : List Token} {isMethod : Bool} {d : Draft}
    (h : start name ps isMethod = .ok d) : d.scopes.At 0 := by
  have hseed : (start.seed isMethod).At 0 := by
    cases isMethod with
    | false => exact Scopes.start_at
    | true => exact (Leads.declareHidden Scopes.start_at "this").here
  unfold start at h
  split at h
  · cases h
    exact hseed
  · split at h
    · cases h
    · split at h
      · next hdeclared =>
        cases h
        exact declareAll_at hseed hdeclared
      · cases h

end Lss
