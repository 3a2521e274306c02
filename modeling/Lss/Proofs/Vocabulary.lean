import Mathlib.Data.Finset.Card
import Mathlib.Data.List.Nodup
import Lss.Proofs.Interned

/-!
# Names that a table holds

A table that only interning filled finds exactly its entries and has each of them once. Whether
another name fits depends on how many it holds and not on their order, so tables can be compared by
the set of their names.
-/
namespace Lss

namespace NameTable

variable {t u : NameTable} {name : String} {i j : UInt16}

structure Sound (t : NameTable) : Prop where
  exact : t.Exact
  distinct : t.Distinct
  fits : t.size ≤ capacity

def names (t : NameTable) : Finset String := t.toList.toFinset

theorem mem_names : name ∈ t.names ↔ name ∈ t.toList := List.mem_toFinset

theorem sound_empty : empty.Sound := ⟨exact_empty, distinct_empty, Nat.zero_le _⟩

theorem Sound.card_names (h : t.Sound) : t.names.card = t.size := by
  rw [names, List.toFinset_card_of_nodup h.distinct.nodup, size_eq]

theorem mem_names_of_get? (h : t.get? i = some name) : name ∈ t.names := by
  rw [get?_eq] at h
  exact mem_names.mpr (List.mem_of_getElem? h)

theorem Extends.names_subset (h : t.Extends u) : t.names ⊆ u.names :=
  fun _ hmem => mem_names.mpr (List.IsPrefix.subset h (mem_names.mp hmem))

/-- Two places of one name are one place. -/
theorem Sound.get?_inj (h : t.Sound) (hi : t.get? i = some name) (hj : t.get? j = some name) :
    i = j := by
  rw [get?_eq] at hi hj
  have hlt := (List.getElem?_eq_some_iff.mp hi).1
  exact UInt16.toNat_inj.mp ((List.getElem?_inj hlt h.distinct.nodup).mp (hi.trans hj.symm))

theorem Sound.push (h : t.Sound) (hnew : name ∉ t.names) (hs : t.size < capacity) :
    (t.push name).Sound := by
  have hlt : t.size < 65536 := Nat.lt_of_lt_of_le hs (by decide)
  refine ⟨h.exact.push hlt, h.distinct.push fun hmem => hnew (mem_names.mpr hmem), ?_⟩
  rw [size_eq, toList_push, List.length_append, ← size_eq]
  exact hs

theorem names_push (t : NameTable) (name : String) :
    (t.push name).names = insert name t.names := by
  rw [names, toList_push, List.toFinset_append, Finset.union_comm]
  rfl

theorem Sound.find?_isSome (h : t.Sound) : (t.find? name).isSome ↔ name ∈ t.names :=
  (h.distinct.found name).trans mem_names.symm

/-- Whether a name was interned or did not fit, the table stays sound. -/
theorem Sound.intern (h : t.Sound) (name : String) : (t.intern name).2.Sound := by
  unfold NameTable.intern
  split
  · exact h
  · next hnone =>
    split
    · next hs =>
      refine h.push (fun hmem => ?_) hs
      rw [← h.find?_isSome, hnone] at hmem
      cases hmem
    · exact h

/-- An interned name is there, and nothing else is new. -/
theorem Sound.names_intern (h : t.Sound) (hi : t.intern name = (.ok i, u)) :
    u.names = insert name t.names := by
  unfold NameTable.intern at hi
  split at hi
  · next hfound =>
    cases hi
    have hmem : name ∈ t.names := by
      rw [← h.find?_isSome, hfound]
      rfl
    exact (Finset.insert_eq_of_mem hmem).symm
  · split at hi
    · cases hi
      exact names_push t name
    · cases hi

/-- All that interning a name does. -/
structure Interned (t : NameTable) (name : String) (i : UInt16) (u : NameTable) : Prop where
  sound : u.Sound
  extends_ : t.Extends u
  get : u.get? i = some name
  names : u.names = insert name t.names

theorem Sound.interned (h : t.Sound) (hi : t.intern name = (.ok i, u)) :
    t.Interned name i u := by
  have hsound := h.intern name
  rw [hi] at hsound
  obtain ⟨-, hext, hget⟩ := h.exact.intern hi
  exact ⟨hsound, hext, hget, h.names_intern hi⟩

theorem Interned.mem (h : t.Interned name i u) : name ∈ u.names := mem_names_of_get? h.get

/-- No names but those of the table and one that is allowed too. -/
theorem Interned.subset (h : t.Interned name i u) {V : Finset String} (ht : t.names ⊆ V)
    (hname : name ∈ V) : u.names ⊆ V := by
  rw [h.names]
  exact Finset.insert_subset hname ht

/-- A name fits if the table and the name are part of few enough names. -/
theorem Sound.intern_isOk (h : t.Sound) {V : Finset String} (hV : V.card ≤ capacity)
    (ht : t.names ⊆ V) (hname : name ∈ V) : ∃ i u, t.intern name = (.ok i, u) := by
  unfold NameTable.intern
  split
  · exact ⟨_, _, rfl⟩
  · next hnone =>
    have hnew : name ∉ t.names := by
      rw [← h.find?_isSome, hnone]
      exact Bool.false_ne_true
    have hlt : t.size < capacity := by
      rw [← h.card_names]
      refine Nat.lt_of_lt_of_le (Finset.card_lt_card ?_) hV
      exact ⟨ht, fun hall => hnew (hall hname)⟩
    rw [if_pos hlt]
    exact ⟨_, _, rfl⟩

end NameTable

structure Vocabulary where
  strings : Finset String
  symbols : Finset String

structure Vocabulary.Small (V : Vocabulary) : Prop where
  strings : V.strings.card ≤ NameTable.capacity
  symbols : V.symbols.card ≤ NameTable.capacity

namespace Pool

variable {p q r : Pool} {V : Vocabulary}

structure Sound (p : Pool) : Prop where
  strings : p.strings.Sound
  symbols : p.symbols.Sound

structure Within (p : Pool) (V : Vocabulary) : Prop where
  strings : p.strings.names ⊆ V.strings
  symbols : p.symbols.names ⊆ V.symbols

def vocabulary (p : Pool) : Vocabulary := ⟨p.strings.names, p.symbols.names⟩

theorem within_vocabulary (p : Pool) : p.Within p.vocabulary :=
  ⟨Finset.Subset.refl _, Finset.Subset.refl _⟩

theorem Sound.small (h : p.Sound) : p.vocabulary.Small :=
  ⟨by rw [vocabulary, h.strings.card_names]; exact h.strings.fits,
    by rw [vocabulary, h.symbols.card_names]; exact h.symbols.fits⟩

theorem Extends.within (h : p.Extends q) (hq : q.Within V) : p.Within V :=
  ⟨h.strings.names_subset.trans hq.strings, h.symbols.names_subset.trans hq.symbols⟩

theorem Interns.sound (h : p.Interns q) (hp : p.Sound) : q.Sound := by
  induction h with
  | refl => exact hp
  | string value _ ih => exact ⟨ih.strings.intern value, ih.symbols⟩
  | symbol name _ ih => exact ⟨ih.strings, ih.symbols.intern name⟩
  | warn more _ ih => exact ⟨ih.strings, ih.symbols⟩

end Pool

end Lss
