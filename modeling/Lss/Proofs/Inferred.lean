import Mathlib.Data.List.Nodup
import Mathlib.Data.Prod.Lex
import Mathlib.Order.WellFounded
import Lss.Lifting.Hierarchy
import Lss.Proofs.Basic

/-!
# Inferred bases

The base of a class is guessed from the members alone. Whatever classes a container has, a base has
no more members than the class, and of two with the same members it is the earlier one. So no class
is its own base however often one goes on, and along the bases of a class just its own members are
listed.
-/
namespace Lss

theorem all_toList {α : Type} {cmp : α → α → Ordering} (t : Std.TreeSet α cmp) (p : α → Bool) :
    t.all p = t.toList.all p := by
  have hloop : t.all p = (Id.run do
    for a in t do
      if p a = false then return false
    return true) := rfl
  rw [hloop, Std.TreeSet.forIn_eq_forIn_toList]
  generalize t.toList = as
  induction as with
  | nil => rfl
  | cons a as ih => cases h : p a <;> simp_all [List.forIn_cons]

/-- Places of the elements that satisfy `p` lead to these elements. -/
theorem filterMap_places {α : Type} (as : List α) (p : α → Bool) :
    (((as.zip (List.range as.length)).filter (p ·.1)).map (·.2)).filterMap (as[·]?) =
      as.filter p := by
  have hget : ∀ x ∈ (as.zip (List.range as.length)).filter (p ·.1), as[x.2]? = some x.1 := by
    intro x hx
    obtain ⟨i, hi, rfl⟩ := List.mem_iff_getElem.mp (List.mem_filter.mp hx).1
    rw [List.getElem_zip, List.getElem_range]
    exact List.getElem?_eq_getElem _
  have hfst : (as.zip (List.range as.length)).map Prod.fst = as :=
    List.map_fst_zip (Nat.le_of_eq List.length_range.symm)
  calc (((as.zip (List.range as.length)).filter (p ·.1)).map (·.2)).filterMap (as[·]?)
    _ = ((as.zip (List.range as.length)).filter (p ·.1)).filterMap (fun x => some x.1) := by
      rw [List.filterMap_map]
      exact List.filterMap_congr hget
    _ = ((as.zip (List.range as.length)).map Prod.fst).filter p := by
      rw [List.filterMap_eq_map', List.filter_map]
      rfl
    _ = as.filter p := by rw [hfst]

namespace Members

variable {m n : Members}

/-- All members of one are members of the other. -/
theorem isSubset_iff : m.isSubset n ↔
    (∀ s ∈ m.properties, s ∈ n.properties) ∧ ∀ s ∈ m.methods, s ∈ n.methods := by
  rw [isSubset, Bool.and_eq_true, all_toList, all_toList, List.all_eq_true, List.all_eq_true]
  simp only [Std.TreeSet.mem_toList, Std.TreeSet.contains_iff_mem]

theorem count_le_of_isSubset (h : m.isSubset n) : m.count ≤ n.count := by
  obtain ⟨hproperties, hmethods⟩ := isSubset_iff.mp h
  refine Nat.add_le_add ?_ ?_
  · rw [← Std.TreeSet.size_inter_eq_size_left hproperties]
    exact Std.TreeSet.size_inter_le_size_right
  · rw [← Std.TreeSet.size_inter_eq_size_left hmethods]
    exact Std.TreeSet.size_inter_le_size_right

/-- A base has fewer members, or as many and stands earlier. -/
theorem isBase_spec {a b : Nat} (h : isBase a n b m) :
    m.isSubset n ∧ (m.count < n.count ∨ m.count = n.count ∧ b < a) := by
  simp only [isBase, Bool.and_eq_true, bne_iff_ne, ne_eq, Bool.not_eq_true', Bool.and_eq_false_iff,
    beq_eq_false_iff_ne, decide_eq_false_iff_not] at h
  obtain ⟨⟨⟨hne, -⟩, hsubset⟩, hlater⟩ := h
  have hle := count_le_of_isSubset hsubset
  exact ⟨hsubset, by omega⟩

/-- What is found is one of the candidates, and may be a base. -/
theorem base?_spec {all : List (Members × Nat)} {a b : Nat} (h : base? all a n = some b) :
    ∃ m, (m, b) ∈ all ∧ isBase a n b m := by
  unfold base? at h
  obtain ⟨best, hbest, rfl⟩ := Option.map_eq_some_iff.mp h
  have key (seen : List (Members × Nat)) (start : Option (Nat × Nat))
      (hstart : ∀ x ∈ start, ∃ m, (m, x.1) ∈ all ∧ isBase a n x.1 m) (hseen : seen ⊆ all) :
      ∀ x ∈ seen.foldl (fun best m => if isBase a n m.2 m.1 &&
          best.all (fun x => x.2 < m.1.count) then some (m.2, m.1.count) else best) start,
        ∃ m, (m, x.1) ∈ all ∧ isBase a n x.1 m := by
    induction seen generalizing start with
    | nil => exact hstart
    | cons m seen ih =>
      rw [List.cons_subset] at hseen
      refine ih _ (fun x hx => ?_) hseen.2
      dsimp only at hx
      split at hx
      · next hbetter =>
        cases hx
        exact ⟨m.1, hseen.1, (Bool.and_eq_true_iff.mp hbetter).1⟩
      · exact hstart x hx
  exact key all none nofun (List.Subset.refl _) best hbest

theorem mem_methods_ofEntry {k : ClassEntry} {s : SymbolId} :
    s.index ∈ (ofEntry k).methods ↔ ∃ m ∈ k.methods, m.symbol = s := by
  rw [ofEntry, ← Std.TreeSet.contains_iff_mem, Std.TreeSet.contains_ofList, List.contains_iff_mem,
    List.mem_map]
  exact exists_congr fun m => and_congr_right fun _ => ⟨fun h => congrArg SymbolId.mk h,
    fun h => congrArg SymbolId.index h⟩

theorem mem_properties_ofEntry {k : ClassEntry} {s : SymbolId} :
    s.index ∈ (ofEntry k).properties ↔ s ∈ k.properties := by
  rw [ofEntry, ← Std.TreeSet.contains_iff_mem, Std.TreeSet.contains_ofList, List.contains_iff_mem,
    List.mem_map]
  constructor
  · rintro ⟨t, ht, heq⟩
    rwa [← show t = s from congrArg SymbolId.mk heq]
  · exact fun h => ⟨s, h, rfl⟩

end Members

namespace Container

variable {c : Container} {a b : Nat} {k kb : ClassEntry} {s : SymbolId}

def baseOf? (c : Container) (a : Nat) : Option Nat := c.shapes[a]?.bind (·.base)

def ownProperties (c : Container) (a : Nat) : List SymbolId :=
  (c.shapes[a]?.map (·.properties)).getD []

def ownMethods (c : Container) (a : Nat) : List MethodEntry :=
  match c.classes[a]?, c.shapes[a]? with
  | some k, some shape => shape.methods.filterMap (k.methods[·]?)
  | _, _ => []

/-- A class and, one after another, the classes that it is taken to extend, up to one that has no
base. -/
inductive Lineage (c : Container) : Nat → List Nat → Prop
  | root {i : Nat} : c.baseOf? i = none → Lineage c i [i]
  | extend {i j : Nat} {l : List Nat} : c.baseOf? i = some j → Lineage c j l → Lineage c i (i :: l)

def rank (c : Container) (a : Nat) : ℕ ×ₗ ℕ :=
  toLex ((c.classes[a]?.map fun k => (Members.ofEntry k).count).getD 0, a)

/-- A class has a base in front of it, or with fewer members, and all that base's members. -/
structure Derives (c : Container) (a : Nat) (k : ClassEntry) (b : Nat) (kb : ClassEntry) :
    Prop where
  base : c.classes[b]? = some kb
  lt : c.rank b < c.rank a
  properties : kb.properties ⊆ k.properties
  methods : ∀ m ∈ kb.methods, ∃ m' ∈ k.methods, m'.symbol = m.symbol
  shape : c.shapes[a]? = some (.ofEntry k (some (b, kb)))

theorem getElem?_shapes (hk : c.classes[a]? = some k) : ∃ base : Option Nat,
    c.shapes[a]? = some (.ofEntry k (base.bind fun i => c.classes[i]?.map (i, ·))) ∧
      ∀ b ∈ base, ∃ kb, c.classes[b]? = some kb ∧
        Members.isBase a (Members.ofEntry k) b (Members.ofEntry kb) := by
  have hlt := (List.getElem?_eq_some_iff.mp hk).1
  refine ⟨Members.base? ((c.classes.map Members.ofEntry).zip (List.range c.classes.length)) a
    (Members.ofEntry k), ?_, fun b hb => ?_⟩
  · have hk := (List.getElem?_eq_some_iff.mp hk).2
    simp [shapes, hlt, hk]
  · obtain ⟨m, hmem, hbase⟩ := Members.base?_spec hb
    obtain ⟨i, hi, heq⟩ := List.mem_iff_getElem.mp hmem
    simp only [List.getElem_zip, List.getElem_map, List.getElem_range, Prod.mk.injEq] at heq
    obtain ⟨rfl, rfl⟩ := heq
    exact ⟨_, List.getElem?_eq_getElem _, hbase⟩

/-- Either a class has no base and all members are its own, or it derives from one. -/
theorem root_or_derives (hk : c.classes[a]? = some k) :
    c.baseOf? a = none ∧ c.shapes[a]? = some (.ofEntry k none) ∨
      ∃ b kb, c.baseOf? a = some b ∧ c.Derives a k b kb := by
  obtain ⟨base, hshape, hbase⟩ := getElem?_shapes hk
  cases base with
  | none =>
    refine .inl ⟨?_, hshape⟩
    rw [baseOf?, hshape]
    rfl
  | some b =>
    obtain ⟨kb, hkb, hisBase⟩ := hbase b rfl
    obtain ⟨hsubset, hrank⟩ := Members.isBase_spec hisBase
    obtain ⟨hproperties, hmethods⟩ := Members.isSubset_iff.mp hsubset
    rw [Option.bind_some, hkb, Option.map_some] at hshape
    refine .inr ⟨b, kb, ?_, hkb, ?_, fun s hs => ?_, fun m hm => ?_, hshape⟩
    · rw [baseOf?, hshape]
      rfl
    · rw [rank, rank, hk, hkb, Prod.Lex.toLex_lt_toLex]
      exact hrank
    · exact Members.mem_properties_ofEntry.mp
        (hproperties _ (Members.mem_properties_ofEntry.mpr hs))
    · exact Members.mem_methods_ofEntry.mp
        (hmethods _ (Members.mem_methods_ofEntry.mpr ⟨m, hm, rfl⟩))

/-! Members along the bases. -/

theorem ownProperties_eq {shape : ClassShape} (h : c.shapes[a]? = some shape) :
    c.ownProperties a = shape.properties := by
  rw [ownProperties, h]
  rfl

theorem ownMethods_eq {shape : ClassShape} (hk : c.classes[a]? = some k)
    (h : c.shapes[a]? = some shape) :
    c.ownMethods a = shape.methods.filterMap (k.methods[·]?) := by
  rw [ownMethods, hk, h]

theorem ownMethods_root (hk : c.classes[a]? = some k)
    (h : c.shapes[a]? = some (.ofEntry k none)) : c.ownMethods a = k.methods := by
  have hall := filterMap_places k.methods fun _ => true
  rw [List.filter_true, List.map_snd_zip (Nat.le_of_eq List.length_range), List.filter_true] at hall
  rw [ownMethods_eq hk h]
  exact hall

/-- The methods of a class that its base does not have with the same code. -/
theorem Derives.ownMethods_eq (hk : c.classes[a]? = some k) (h : c.Derives a k b kb) :
    c.ownMethods a = k.methods.filter fun m =>
      (kb.method? m.symbol).all fun inherited => !inherited.code.agrees m.code := by
  rw [Container.ownMethods_eq hk h.shape, ← filterMap_places]
  refine congrArg (fun ms : List (MethodEntry × Nat) => (ms.map (·.2)).filterMap (k.methods[·]?)) ?_
  refine List.filter_congr fun m _ => ?_
  dsimp only
  cases kb.method? m.1.symbol with
  | none => rfl
  | some inherited => rfl

theorem Derives.ownProperties_eq (h : c.Derives a k b kb) :
    c.ownProperties a = k.properties.filter (!kb.hasProperty ·) :=
  Container.ownProperties_eq h.shape

/-- A property is the class's own or one of the base's. -/
theorem Derives.mem_properties (h : c.Derives a k b kb) :
    s ∈ k.properties ↔ s ∈ c.ownProperties a ∨ s ∈ kb.properties := by
  rw [h.ownProperties_eq, List.mem_filter, ClassEntry.hasProperty, Bool.not_eq_true',
    ← Bool.not_eq_true, List.contains_iff_mem]
  constructor
  · intro hs
    by_cases hb : s ∈ kb.properties
    · exact .inr hb
    · exact .inl ⟨hs, hb⟩
  · rintro (hs | hs)
    · exact hs.1
    · exact h.properties hs

theorem isSome_method? : (k.method? s).isSome ↔ ∃ m ∈ k.methods, m.symbol = s := by
  simp [ClassEntry.method?, List.find?_isSome]

/-- The same for a method, by its symbol: one that is left out is the base's. -/
theorem Derives.mem_methods (hk : c.classes[a]? = some k) (h : c.Derives a k b kb) :
    (∃ m ∈ k.methods, m.symbol = s) ↔
      (∃ m ∈ c.ownMethods a, m.symbol = s) ∨ ∃ m ∈ kb.methods, m.symbol = s := by
  simp only [h.ownMethods_eq hk, List.mem_filter]
  constructor
  · rintro ⟨m, hm, rfl⟩
    cases hb : kb.method? m.symbol with
    | none => exact .inl ⟨m, ⟨hm, by rw [hb]; rfl⟩, rfl⟩
    | some inherited => exact .inr (isSome_method?.mp (by rw [hb]; rfl))
  · rintro (⟨m, ⟨hm, -⟩, rfl⟩ | ⟨m, hm, rfl⟩)
    · exact ⟨m, hm, rfl⟩
    · exact h.methods m hm

/-- Along the bases of a class each class occurs once, and the members that they list are those of
the class. -/
structure Inherits (c : Container) (k : ClassEntry) (l : List Nat) : Prop where
  nodup : l.Nodup
  classes : ∀ i ∈ l, i < c.classes.length
  properties : ∀ s, s ∈ k.properties ↔ ∃ i ∈ l, s ∈ c.ownProperties i
  methods : ∀ s, (∃ m ∈ k.methods, m.symbol = s) ↔ ∃ i ∈ l, ∃ m ∈ c.ownMethods i, m.symbol = s

theorem Inherits.extend (hk : c.classes[a]? = some k) (h : c.Derives a k b kb) {l : List Nat}
    (hl : c.Inherits kb l) (hlt : ∀ i ∈ l, c.rank i < c.rank a) : c.Inherits k (a :: l) where
  nodup := hl.nodup.cons fun ha => lt_irrefl _ (hlt a ha)
  classes := List.forall_mem_cons.mpr ⟨(List.getElem?_eq_some_iff.mp hk).1, hl.classes⟩
  properties s := by rw [h.mem_properties, hl.properties, List.exists_mem_cons_iff]
  methods s := by rw [h.mem_methods hk, hl.methods, List.exists_mem_cons_iff]

theorem Lineage.unique {l l' : List Nat} (h : c.Lineage a l) (h' : c.Lineage a l') : l' = l := by
  induction h generalizing l' with
  | root hnone =>
    cases h' with
    | root => rfl
    | extend hsome => cases hnone.symm.trans hsome
  | extend hsome _ ih =>
    cases h' with
    | root hnone => cases hnone.symm.trans hsome
    | extend hsome' hl' =>
      cases hsome.symm.trans hsome'
      rw [ih hl']

/-- From every class the bases lead to one that has none. -/
theorem exists_lineage (hk : c.classes[a]? = some k) :
    ∃ l, c.Lineage a l ∧ c.Inherits k l ∧ ∀ i ∈ l, c.rank i ≤ c.rank a := by
  induction a using (InvImage.wf c.rank wellFounded_lt).induction generalizing k with
  | _ a ih =>
    rcases root_or_derives hk with ⟨hnone, hshape⟩ | ⟨b, kb, hsome, hderives⟩
    · refine ⟨[a], .root hnone, ⟨List.nodup_singleton a, ?_, fun s => ?_, fun s => ?_⟩, ?_⟩
      · exact List.forall_mem_singleton.mpr (List.getElem?_eq_some_iff.mp hk).1
      · simp only [List.mem_singleton, exists_eq_left, ownProperties_eq hshape]
        rfl
      · simp only [List.mem_singleton, exists_eq_left, ownMethods_root hk hshape]
      · exact List.forall_mem_singleton.mpr (le_refl _)
    · obtain ⟨l, hlineage, hinherits, hrank⟩ := ih b hderives.lt hderives.base
      have hlt : ∀ i ∈ l, c.rank i < c.rank a := fun i hi => (hrank i hi).trans_lt hderives.lt
      exact ⟨a :: l, .extend hsome hlineage, hinherits.extend hk hderives hlt,
        List.forall_mem_cons.mpr ⟨le_refl _, fun i hi => (hlt i hi).le⟩⟩

/-- Whatever the classes are, the bases of each come to an end, no class occurs twice among them,
and together they list the members of the class and no others. -/
theorem lineage_inherits (c : Container) (a : Nat) (k : ClassEntry) (hk : c.classes[a]? = some k) :
    ∃ l, c.Lineage a l ∧ (∀ l', c.Lineage a l' → l' = l) ∧ c.Inherits k l := by
  obtain ⟨l, hlineage, hinherits, -⟩ := exists_lineage hk
  exact ⟨l, hlineage, fun _ h' => hlineage.unique h', hinherits⟩

/-- Two classes with the same members, the second with other code, and one with a property more. -/
def alike : Container where
  classes :=
    [{ name := "A", properties := [⟨0⟩, ⟨0⟩], methods := [⟨⟨1⟩, [.return_]⟩] },
      { name := "B", properties := [⟨0⟩], methods := [⟨⟨1⟩, [.pushNothing, .return_]⟩] },
      { name := "C", properties := [⟨2⟩, ⟨0⟩], methods := [⟨⟨1⟩, [.return_]⟩] }]

theorem lineage_inherits_alike : ∃ k, alike.classes[2]? = some k ∧
    ∃ l, alike.Lineage 2 l ∧ (∀ l', alike.Lineage 2 l' → l' = l) ∧ alike.Inherits k l :=
  ⟨_, rfl, lineage_inherits alike 2 _ rfl⟩

end Container

end Lss
