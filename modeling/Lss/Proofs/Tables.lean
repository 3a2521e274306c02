import Mathlib.Data.List.Nodup
import Lss.Container.NameTable

/-!
# Name tables under interning

A table whose index tells the truth keeps doing so, and only ever grows at its end. One that loads
names, repeated ones too, and then interns others finds every name at its first position. Interning
adds a name at the end or changes nothing, so no position ever comes to hold another name. It fails
just where a new name comes to a table that has no room for it.
-/
namespace Lss.NameTable

variable {t u v : NameTable} {name : String} {i : UInt16}

def Exact (t : NameTable) : Prop := ∀ name i, t.find? name = some i → t.get? i = some name

def Extends (t u : NameTable) : Prop := t.toList <+: u.toList

theorem get?_eq (t : NameTable) (i : UInt16) : t.get? i = t.toList[i.toNat]? := by
  simp [get?, toList]

theorem size_eq (t : NameTable) : t.size = t.toList.length := by simp [size, toList]

theorem lt_size_of_get? (h : t.get? i = some name) : i.toNat < t.size := by
  rw [get?_eq] at h
  rw [size_eq]
  exact (List.getElem?_eq_some_iff.mp h).1

theorem toList_push (t : NameTable) (name : String) :
    (t.push name).toList = t.toList ++ [name] := by
  simp [push, toList]

/-- A name that is there keeps its position. -/
theorem find?_push (t : NameTable) (name other : String) : (t.push name).find? other =
    (t.find? other).or (if other = name then some (UInt16.ofNat t.size) else none) := by
  have hcompare : compare name other = .eq ↔ other = name :=
    ⟨fun h => (Std.LawfulEqCmp.eq_of_compare h).symm, fun h => h ▸ Std.ReflCmp.compare_self⟩
  simp only [find?, NameTable.push, size, Std.TreeMap.getElem?_insertIfNew, hcompare,
    Std.TreeMap.mem_iff_isSome_getElem?]
  by_cases h : other = name
  · subst h
    cases t.index[other]? <;> simp
  · simp [h]

theorem size_push (t : NameTable) (name : String) : (t.push name).size = t.size + 1 := by
  rw [size_eq, toList_push, List.length_append, size_eq]
  rfl

theorem toList_ofList (names : List String) : (ofList names).toList = names := by
  have hpush (names : List String) (t : NameTable) :
      (names.foldl push t).toList = t.toList ++ names := by
    induction names generalizing t with
    | nil => simp
    | cons name names ih => simp [ih, toList_push]
  rw [ofList, hpush]
  rfl

theorem Extends.refl (t : NameTable) : t.Extends t := List.prefix_refl _

theorem Extends.trans (h : t.Extends u) (k : u.Extends v) : t.Extends v := List.IsPrefix.trans h k

theorem Extends.size_le (h : t.Extends u) : t.size ≤ u.size := by
  rw [size_eq, size_eq]
  exact List.IsPrefix.length_le h

theorem Extends.get? (h : t.Extends u) (hi : t.get? i = some name) : u.get? i = some name := by
  rw [get?_eq] at hi ⊢
  obtain ⟨rest, hr⟩ := h
  rw [← hr, List.getElem?_append_left (List.getElem?_eq_some_iff.mp hi).1]
  exact hi

theorem extends_push (t : NameTable) (name : String) : t.Extends (t.push name) := by
  rw [Extends, toList_push]
  exact List.prefix_append _ _

theorem get?_push_self (h : t.size < 65536) :
    (t.push name).get? (UInt16.ofNat t.size) = some name := by
  have hn : (UInt16.ofNat t.size).toNat = t.toList.length := by
    rw [UInt16.toNat_ofNat_of_lt' h, size_eq]
  rw [get?_eq, toList_push, hn, List.getElem?_concat_length]

theorem exact_empty : empty.Exact := by
  intro name i h
  simp [find?, empty] at h

theorem Exact.push (h : t.Exact) (hs : t.size < 65536) : (t.push name).Exact := by
  intro other i hi
  rw [find?_push, Option.or_eq_some_iff] at hi
  obtain hi | ⟨-, hi⟩ := hi
  · exact (extends_push t name).get? (h other i hi)
  · split at hi
    · next heq =>
      cases hi
      exact heq ▸ get?_push_self hs
    · cases hi

/-- A name that was interned is where interning says, and nothing else has moved. -/
theorem Exact.intern (h : t.Exact) (hi : t.intern name = (.ok i, u)) :
    u.Exact ∧ t.Extends u ∧ u.get? i = some name := by
  unfold NameTable.intern at hi
  split at hi
  · next _ hj =>
    cases hi
    exact ⟨h, .refl t, h name _ hj⟩
  · split at hi
    · next hs =>
      have hs : t.size < 65536 := Nat.lt_of_lt_of_le hs (by decide)
      cases hi
      exact ⟨h.push hs, extends_push t name, get?_push_self hs⟩
    · cases hi

structure Distinct (t : NameTable) : Prop where
  nodup : t.toList.Nodup
  found : ∀ name, (t.find? name).isSome ↔ name ∈ t.toList

theorem distinct_empty : empty.Distinct :=
  ⟨List.nodup_nil, fun name => by simp [find?, toList, empty]⟩

theorem Distinct.push (h : t.Distinct) (hnew : name ∉ t.toList) : (t.push name).Distinct := by
  refine ⟨?_, fun other => ?_⟩
  · rw [toList_push, List.nodup_append]
    refine ⟨h.nodup, List.nodup_singleton name, fun a ha b hb => ?_⟩
    rw [List.mem_singleton.mp hb]
    exact fun heq => hnew (heq ▸ ha)
  · rw [toList_push, List.mem_append, List.mem_singleton, ← h.found]
    rw [find?_push, Option.isSome_or, Bool.or_eq_true]
    refine or_congr Iff.rfl ?_
    split <;> simp_all

/-- A name that is not there yet goes to the end. -/
theorem Distinct.intern (h : t.Distinct) (name : String) :
    (t.intern name).2.Distinct ∧ ∀ i, (t.intern name).1 = .ok i → name ∉ t.toList →
      (t.intern name).2.toList = t.toList ++ [name] := by
  unfold NameTable.intern
  split
  · next i hi =>
    refine ⟨h, fun _ _ hnew => absurd ((h.found name).mp ?_) hnew⟩
    rw [hi]
    rfl
  · next hnone =>
    have hnew : name ∉ t.toList := by
      rw [← h.found, hnone]
      exact Bool.false_ne_true
    split
    · exact ⟨h.push hnew, fun _ _ _ => toList_push t name⟩
    · exact ⟨h, fun _ hi => nomatch hi⟩

/-! ## First positions -/

/-- The index gives the first position of every name, and every position has a number. -/
structure Placed (t : NameTable) : Prop where
  found : ∀ name, (t.find? name).map (·.toNat) = t.toList.idxOf? name
  small : t.size ≤ 65536

/-- A table that another becomes when names are interned, whether or not they fit. -/
inductive Becomes (t : NameTable) : NameTable → Prop
  | refl : Becomes t t
  | intern {u : NameTable} (name : String) : Becomes t u → Becomes t (u.intern name).2

/-! One step. -/

theorem idxOf?_concat (names : List String) (name other : String) :
    (names ++ [name]).idxOf? other =
      (names.idxOf? other).or (if other = name then some names.length else none) := by
  simp only [List.idxOf?, List.findIdx?_append, List.findIdx?_cons, List.findIdx?_nil]
  by_cases h : other = name
  · simp [h]
  · simp [h, Ne.symm h]

theorem placed_empty : empty.Placed :=
  ⟨fun name => by simp [find?, toList, empty], Nat.zero_le _⟩

namespace Placed

theorem push (h : t.Placed) (hs : t.size < 65536) (name : String) : (t.push name).Placed := by
  refine ⟨fun other => ?_, by rw [size_push]; exact hs⟩
  have hlast : (UInt16.ofNat t.size).toNat = t.toList.length := by
    rw [UInt16.toNat_ofNat_of_lt' hs, size_eq]
  rw [find?_push, toList_push, idxOf?_concat, ← h.found other, Option.map_or]
  split
  · rw [Option.map_some, hlast]
  · rfl

/-- A name is not found just where it is not there. -/
theorem find?_eq_none (h : t.Placed) : t.find? name = none ↔ name ∉ t.toList := by
  rw [← Option.map_eq_none_iff (f := UInt16.toNat), h.found, List.idxOf?_eq_none_iff]

theorem exact (h : t.Placed) : t.Exact := by
  intro name i hi
  have hidx : t.toList.idxOf? name = some i.toNat := by rw [← h.found, hi]; rfl
  obtain ⟨hlt, hname, -⟩ := List.idxOf?_eq_some_iff.mp hidx
  rw [get?_eq, List.getElem?_eq_getElem hlt, hname]

/-- A name that is there keeps its place, a new one comes behind the others, and where there is no
room for it nothing happens. -/
theorem intern_cases (h : t.Placed) (name : String) :
    (∃ i, name ∈ t.toList ∧ t.find? name = some i ∧ t.intern name = (.ok i, t)) ∨
      (name ∉ t.toList ∧ t.size < capacity ∧
        t.intern name = (.ok (UInt16.ofNat t.size), t.push name)) ∨
      (name ∉ t.toList ∧ capacity ≤ t.size ∧ t.intern name = (.error .tableFull, t)) := by
  unfold NameTable.intern
  cases hfind : t.find? name with
  | some i =>
    have hmem : name ∈ t.toList := by
      rw [← Decidable.not_not (p := name ∈ t.toList), ← h.find?_eq_none, hfind]
      exact nofun
    exact .inl ⟨i, hmem, rfl, rfl⟩
  | none =>
    have hnew := h.find?_eq_none.mp hfind
    by_cases hs : t.size < capacity
    · exact .inr (.inl ⟨hnew, hs, if_pos hs⟩)
    · exact .inr (.inr ⟨hnew, Nat.le_of_not_lt hs, if_neg hs⟩)

theorem intern (h : t.Placed) (name : String) :
    (t.intern name).2.Placed ∧ t.Extends (t.intern name).2 := by
  obtain ⟨i, -, -, heq⟩ | ⟨-, hs, heq⟩ | ⟨-, -, heq⟩ := h.intern_cases name <;> rw [heq]
  · exact ⟨h, .refl t⟩
  · exact ⟨h.push (Nat.lt_of_lt_of_le hs (by decide)) name, extends_push t name⟩
  · exact ⟨h, .refl t⟩

/-! Runs. -/

theorem becomes (h : t.Placed) (hu : t.Becomes u) : u.Placed ∧ t.Extends u := by
  induction hu with
  | refl => exact ⟨h, .refl t⟩
  | intern name _ ih =>
    obtain ⟨hplaced, hmore⟩ := ih.1.intern name
    exact ⟨hplaced, ih.2.trans hmore⟩

end Placed

theorem placed_ofList {names : List String} (h : names.length ≤ 65536) :
    (ofList names).Placed := by
  have hall (names : List String) : ∀ t : NameTable, t.Placed →
      t.size + names.length ≤ 65536 → (names.foldl NameTable.push t).Placed := by
    induction names with
    | nil => exact fun _ ht _ => ht
    | cons name names ih =>
      intro t ht hsize
      rw [List.length_cons] at hsize
      exact ih _ (ht.push (by omega) name) (by rw [size_push]; omega)
  exact hall names empty placed_empty (by simpa [size, empty] using h)

structure Steady (t : NameTable) : Prop where
  first : ∀ name, (t.find? name).map (·.toNat) = t.toList.idxOf? name
  stays : ∀ u, t.Becomes u → t.toList <+: u.toList
  interned : ∀ name i u, t.intern name = (.ok i, u) →
    u.get? i = some name ∧ u.find? name = some i
  unchanged : ∀ name, name ∈ t.toList ∨ (∃ e, (t.intern name).1 = .error e) →
    (t.intern name).2 = t
  appended : ∀ name i u, t.intern name = (.ok i, u) → name ∉ t.toList →
    i.toNat = t.size ∧ u.toList = t.toList ++ [name]
  fails : ∀ name, (∃ e, (t.intern name).1 = .error e) ↔ name ∉ t.toList ∧ 65535 ≤ t.size

/-- Loaded with names for all positions at most, a table stays exact whatever is interned. -/
theorem ofList_steady {names : List String} (hfit : names.length ≤ 65536)
    (ht : (ofList names).Becomes t) : t.Steady := by
  have h := ((placed_ofList hfit).becomes ht).1
  refine ⟨h.found, fun u hu => (h.becomes hu).2, fun name i u heq => ?_, fun name hor => ?_,
    fun name i u heq hnew => ?_, fun name => ?_⟩
  · have hfound : u.find? name = some i := by
      obtain ⟨j, -, hj, hcase⟩ | ⟨hnew, -, hcase⟩ | ⟨-, -, hcase⟩ := h.intern_cases name <;>
        rw [hcase] at heq <;> cases heq
      · exact hj
      · rw [find?_push, h.find?_eq_none.mpr hnew, if_pos rfl]
        rfl
    have hplaced := (h.intern name).1
    rw [heq] at hplaced
    exact ⟨hplaced.exact name i hfound, hfound⟩
  · obtain ⟨_, -, -, hcase⟩ | ⟨hnew, -, hcase⟩ | ⟨-, -, hcase⟩ := h.intern_cases name
    · rw [hcase]
    · rw [hcase] at hor
      exact hor.elim (absurd · hnew) fun ⟨e, he⟩ => nomatch he
    · rw [hcase]
  · obtain ⟨_, hmem, -, -⟩ | ⟨-, hs, hcase⟩ | ⟨-, -, hcase⟩ := h.intern_cases name
    · exact absurd hmem hnew
    · rw [hcase] at heq
      cases heq
      exact ⟨UInt16.toNat_ofNat_of_lt' (Nat.lt_of_lt_of_le hs (by decide)), toList_push t name⟩
    · rw [hcase] at heq
      cases heq
  · obtain ⟨_, hmem, -, hcase⟩ | ⟨-, hs, hcase⟩ | ⟨hnew, hs, hcase⟩ := h.intern_cases name <;>
      rw [hcase]
    · exact ⟨(fun ⟨_, he⟩ => nomatch he), fun hboth => absurd hmem hboth.1⟩
    · exact ⟨(fun ⟨_, he⟩ => nomatch he), fun hboth => absurd hs (Nat.not_lt.mpr hboth.2)⟩
    · exact ⟨fun _ => ⟨hnew, hs⟩, fun _ => ⟨_, rfl⟩⟩

def crowd : List String := .replicate 65536 "a"

/-- The name is there, so it can be interned, and there is no room for another one. -/
theorem ofList_steady_crowd :
    ((ofList crowd).intern "a").2.Steady ∧
      ∃ e, (((ofList crowd).intern "a").2.intern "b").1 = .error e := by
  have hfit : crowd.length ≤ 65536 := Nat.le_of_eq List.length_replicate
  have hsteady : ((ofList crowd).intern "a").2.Steady :=
    ofList_steady hfit (.intern "a" .refl)
  have hsame : ((ofList crowd).intern "a").2 = ofList crowd := by
    refine (ofList_steady hfit .refl).unchanged "a" (.inl ?_)
    rw [toList_ofList]
    exact List.mem_replicate.mpr ⟨by decide, rfl⟩
  refine ⟨hsteady, (hsteady.fails "b").mpr ?_⟩
  rw [hsame, size_eq, toList_ofList, crowd, List.length_replicate]
  exact ⟨fun hmem => absurd (List.eq_of_mem_replicate hmem) (by decide), by decide⟩

end Lss.NameTable
