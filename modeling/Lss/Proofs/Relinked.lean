import Mathlib.Algebra.GroupWithZero.Nat
import Lss.Proofs.CodeBytes
import Lss.Proofs.FollowedUnit

/-!
# Linking in one go or in two

Linking succeeds if every name that is called has a function. Where functions lie depends on names
and sizes alone, and those added later move none; so it does not matter whether some bodies were
linked before others were there.
-/
namespace Lss

namespace Code

variable {targets more : Std.TreeMap String Nat} {code : Code}

def Linkable (targets : Std.TreeMap String Nat) (code : Code) : Prop :=
  ∀ f argc, .unresolvedCall f argc ∈ code → targets[f]?.isSome

theorem succeeds_link : Succeeds (link targets code) ↔ code.Linkable targets := by
  have honto (acc : Code) : Succeeds (linkOnto targets acc code) ↔ code.Linkable targets := by
    fun_induction linkOnto targets acc code with
    | case1 acc => simp [Linkable, succeeds_ok]
    | case2 acc f argc code offset hf ih =>
      rw [ih]
      simp only [Linkable, List.mem_cons]
      constructor
      · rintro h g n (heq | hmem)
        · cases heq
          rw [hf]
          rfl
        · exact h g n hmem
      · exact fun h g n hmem => h g n (.inr hmem)
    | case3 acc f argc code hf =>
      constructor
      · rintro ⟨_, h⟩
        cases h
      · intro h
        have hplace := h f argc List.mem_cons_self
        rw [hf] at hplace
        cases hplace
    | case4 acc i code hi ih =>
      rw [ih]
      simp only [Linkable, List.mem_cons]
      constructor
      · rintro h g n (heq | hmem)
        · exact absurd heq.symm (hi g n)
        · exact h g n hmem
      · exact fun h g n hmem => h g n (.inr hmem)
  exact honto []

theorem Linkable.mono (h : code.Linkable targets)
    (hmore : ∀ f : String, targets[f]?.isSome → more[f]?.isSome) : code.Linkable more :=
  fun f argc hmem => hmore f (h f argc hmem)

theorem linkable_linked (place : String → UInt32) (code : Code) :
    (code.linked place).Linkable targets := by
  intro f argc hmem
  obtain ⟨i, -, hi⟩ := List.mem_map.mp hmem
  cases i <;> cases hi

end Code

namespace Container

structure Linkable (c : Container) : Prop where
  functions : ∀ e ∈ c.functions, e.code.Linkable c.targets
  classes : ∀ k ∈ c.classes, ∀ e ∈ k.methods, e.code.Linkable c.targets

theorem linkable_iff {c : Container} : c.Linkable ↔
    (∀ e ∈ c.functions, e.code.Linkable c.targets) ∧
      ∀ k ∈ c.classes, ∀ e ∈ k.methods, e.code.Linkable c.targets :=
  ⟨fun h => ⟨h.functions, h.classes⟩, fun h => ⟨h.1, h.2⟩⟩

theorem succeeds_link {c : Container} : Succeeds c.link ↔ c.Linkable := by
  have hfunctions : Succeeds (c.functions.mapM fun f => do
      return { f with code := ← f.code.link c.targets }) ↔
      ∀ e ∈ c.functions, e.code.Linkable c.targets :=
    succeeds_mapM.trans (forall₂_congr fun _ _ => (succeeds_map _).trans Code.succeeds_link)
  have hmethods (k : ClassEntry) : Succeeds (k.methods.mapM fun m => do
      return { m with code := ← m.code.link c.targets }) ↔
      ∀ e ∈ k.methods, e.code.Linkable c.targets :=
    succeeds_mapM.trans (forall₂_congr fun _ _ => (succeeds_map _).trans Code.succeeds_link)
  unfold link
  rw [linkable_iff, ← hfunctions]
  refine succeeds_bind fun functions _ => (succeeds_map _).trans (succeeds_mapM.trans ?_)
  exact forall₂_congr fun k _ => (succeeds_map _).trans (hmethods k)

/-- Linking gives the container with all its calls by place, or nothing. -/
theorem link_eq_ok {c d : Container} :
    c.link = .ok d ↔ c.Linkable ∧ d = c.linked (Code.placeIn c.targets) := by
  constructor
  · exact fun h => ⟨succeeds_link.mp ⟨d, h⟩, link_eq h⟩
  · rintro ⟨h, rfl⟩
    obtain ⟨e, he⟩ := succeeds_link.mpr h
    rw [he, link_eq he]

/-! Where functions lie. -/

def shape (c : Container) : List (String × Nat) := c.functions.map fun e => (e.name, e.code.size)

variable {c d : Container}

theorem before_eq_sum (c : Container) (k : Nat) :
    c.before k = ((c.shape.take k).map (·.2)).sum := by
  have hsize (es : List FunctionEntry) :
      Code.size (es.flatMap (·.code)) = (es.map (·.code.size)).sum := by
    induction es with
    | nil => rfl
    | cons e es ih => rw [List.flatMap_cons, Code.size_append, List.map_cons, List.sum_cons, ih]
  rw [before, hsize, shape, ← List.map_take, List.map_map]
  rfl

theorem shape_linked (place : String → UInt32) (c : Container) :
    (c.linked place).shape = c.shape := by
  rw [shape, linked, List.map_map]
  refine List.map_congr_left fun e _ => ?_
  exact congrArg (Prod.mk e.name) (Code.size_linked place e.code)

theorem targets_eq (h : c.shape = d.shape) : c.targets = d.targets := by
  have hnames : c.functions.map (·.name) = d.functions.map (·.name) := by
    have := congrArg (List.map Prod.fst) h
    simpa [shape, List.map_map, Function.comp_def] using this
  have hoffsets : c.functionOffsets = d.functionOffsets := by
    have hlength : c.functions.length = d.functions.length := by
      simpa [shape] using congrArg List.length h
    rw [functionOffsets_eq, functionOffsets_eq, hlength]
    refine List.map_congr_left fun k _ => ?_
    rw [before_eq_sum, before_eq_sum, h]
  have hzip (c : Container) : c.targets = ((c.functions.map (·.name)).zip c.functionOffsets).foldl
      (fun m x => m.insert x.1 x.2) {} := by
    rw [List.zip_map_left, List.foldl_map]
    rfl
  rw [hzip, hzip, hnames, hoffsets]

/-- Functions that are added move none, if their names are new. -/
theorem placeIn_targets (h : c.shape <+: d.shape) (hnodup : (d.shape.map (·.1)).Nodup)
    {f : String} (hf : c.targets[f]?.isSome) :
    d.targets[f]?.isSome ∧ Code.placeIn d.targets f = Code.placeIn c.targets f := by
  obtain ⟨k, e, hk, rfl, hplace⟩ := target_spec hf
  obtain ⟨rest, hrest⟩ := h
  have hlt : k < c.shape.length := by
    rw [shape, List.length_map]
    exact (List.getElem?_eq_some_iff.mp hk).1
  have hname : (d.shape.map (·.1))[k]? = some e.name := by
    have hshape : c.shape[k]? = some (e.name, e.code.size) := by
      rw [shape, List.getElem?_map, hk]
      rfl
    rw [List.getElem?_map, ← hrest, List.getElem?_append_left hlt, hshape]
    rfl
  have hnames : d.shape.map (·.1) = d.functions.map (·.name) := by
    rw [shape, List.map_map]
    rfl
  have hsome : d.targets[e.name]?.isSome := by
    rw [hnames, List.getElem?_map] at hname
    obtain ⟨e', hk', hname'⟩ := Option.map_eq_some_iff.mp hname
    rw [← hname']
    exact isSome_targets (List.mem_of_getElem? hk')
  obtain ⟨j, e', hj, hname', hplace'⟩ := target_spec hsome
  -- no other function has the name
  have hjk : k = j := by
    refine (List.getElem?_inj (List.getElem?_eq_some_iff.mp hname).1 hnodup).mp ?_
    rw [hname, hnames, List.getElem?_map, hj, ← hname']
    rfl
  subst hjk
  refine ⟨hsome, UInt32.toNat_inj.mp ?_⟩
  rw [hplace, hplace', before_eq_sum, before_eq_sum, ← hrest,
    List.take_append_of_le_length (Nat.le_of_lt hlt)]

end Container

/-! Bodies that were linked before, beside those that were not. -/

section

variable {t targets : Std.TreeMap String Nat} {p q : Pool} {a b : Code}

theorem Code.Alike.mem_unresolvedCall (h : a.Alike p q b) {f : String} {argc : UInt8}
    (hmem : .unresolvedCall f argc ∈ a) : .unresolvedCall f argc ∈ b := by
  induction h with
  | nil => cases hmem
  | @cons i j _ _ hij _ ih =>
    rcases List.mem_cons.mp hmem with rfl | hmem
    · have hform := hij.1
      cases j <;> cases hform
      exact List.mem_cons_self
    · exact List.mem_cons_of_mem j (ih hmem)

theorem Code.Alike.linkable_iff (h : a.Alike p q b) :
    a.Linkable targets ↔ b.Linkable targets :=
  ⟨fun ha f argc hmem => ha f argc (h.symm.mem_unresolvedCall hmem),
    fun hb f argc hmem => hb f argc (h.mem_unresolvedCall hmem)⟩

def Code.Joins (t : Std.TreeMap String Nat) (p q : Pool) (a b : Code) : Prop :=
  ∃ raw, Code.Alike p q raw b ∧ (a = raw ∨ raw.Linkable t ∧ a = raw.linked (placeIn t))

theorem covers_joins (t : Std.TreeMap String Nat) : Covers (Code.Joins t) where
  alike h := ⟨_, h, .inl rfl⟩
  mono := by
    rintro _ _ _ _ _ _ hp hq ⟨raw, h, ha⟩
    exact ⟨raw, h.mono hp hq, ha⟩

theorem Code.Joins.size_eq (h : Code.Joins t p q a b) : a.size = b.size := by
  obtain ⟨raw, hraw, rfl | ⟨-, rfl⟩⟩ := h
  · exact hraw.size_eq
  · rw [Code.size_linked, hraw.size_eq]

theorem Code.Joins.linkable_iff (h : Code.Joins t p q a b)
    (ht : ∀ f : String, t[f]?.isSome → targets[f]?.isSome) :
    a.Linkable targets ↔ b.Linkable targets := by
  obtain ⟨raw, hraw, rfl | ⟨hlink, rfl⟩⟩ := h
  · exact hraw.linkable_iff
  · exact iff_of_true (Code.linkable_linked _ raw) (hraw.linkable_iff.mp (hlink.mono ht))

/-- Linked with places that were right before, both give the same. -/
theorem Code.Joins.linked (h : Code.Joins t p q a b) {place : String → UInt32}
    (hplace : ∀ f : String, t[f]?.isSome → place f = placeIn t f) :
    (a.linked place).Alike p q (b.linked place) := by
  obtain ⟨raw, hraw, rfl | ⟨hlink, rfl⟩⟩ := h
  · exact hraw.linked place
  · have hagain : (raw.linked (placeIn t)).linked place = raw.linked place := by
      rw [Code.linked_of_resolved fun i hi => Code.isByName_of_mem_linked hi]
      refine List.map_congr_left fun i hi => ?_
      cases i with
      | unresolvedCall f argc =>
        rw [Instruction.linked, Instruction.linked, hplace f (hlink f argc hi)]
      | _ => rfl
    rw [hagain]
    exact hraw.linked place

theorem FunctionEntry.Corresponds.joins {e f : FunctionEntry}
    (h : e.Corresponds Code.Alike p q f) (t : Std.TreeMap String Nat) :
    e.Corresponds (Code.Joins t) p q f :=
  ⟨h.name, h.parameterCount, (covers_joins t).alike h.code⟩

theorem FunctionEntry.Corresponds.linked_left {e f : FunctionEntry}
    (h : e.Corresponds Code.Alike p q f) (hlink : e.code.Linkable t) :
    (e.linked (Code.placeIn t)).Corresponds (Code.Joins t) p q f :=
  ⟨h.name, h.parameterCount, e.code, h.code, .inr ⟨hlink, rfl⟩⟩

theorem ClassEntry.Corresponds.linked_left {k l : ClassEntry}
    (h : k.Corresponds Code.Alike p q l) (hlink : ∀ e ∈ k.methods, e.code.Linkable t) :
    (k.linked (Code.placeIn t)).Corresponds (Code.Joins t) p q l :=
  ⟨h.name, h.properties, rel_map_left_of_mem h.methods fun e he _ hmn =>
    ⟨hmn.symbol, e.code, hmn.code, .inr ⟨hlink e he, rfl⟩⟩⟩

/-! Entries of such bodies, once linked. -/

section

variable {place : String → UInt32}

theorem FunctionEntry.Corresponds.named_linked
    (hplace : ∀ f : String, t[f]?.isSome → place f = Code.placeIn t f) {e f : FunctionEntry}
    (h : e.Corresponds (Code.Joins t) p q f) :
    (e.linked place).named p = (f.linked place).named q := by
  rw [named, named, NamedFunction.mk.injEq]
  exact ⟨h.name, h.parameterCount, (h.code.linked hplace).named_eq⟩

theorem MethodEntry.Corresponds.named_linked
    (hplace : ∀ f : String, t[f]?.isSome → place f = Code.placeIn t f) {m n : MethodEntry}
    (h : m.Corresponds (Code.Joins t) p q n) :
    (m.linked place).named p = (n.linked place).named q := by
  obtain ⟨name, hm, hn⟩ := h.symbol
  rw [named, named, NamedMethod.mk.injEq]
  exact ⟨hm.trans hn.symm, (h.code.linked hplace).named_eq⟩

theorem ClassEntry.Corresponds.named_linked
    (hplace : ∀ f : String, t[f]?.isSome → place f = Code.placeIn t f) {k l : ClassEntry}
    (h : k.Corresponds (Code.Joins t) p q l) :
    (k.linked place).named p = (l.linked place).named q := by
  have hproperties : k.properties.map (fun s => p.name? (.symbol s)) =
      l.properties.map fun s => q.name? (.symbol s) := by
    refine map_eq_of_rel h.properties fun s s' hs => ?_
    obtain ⟨name, hs, hs'⟩ := hs
    exact hs.trans hs'.symm
  have hmethods : (k.methods.map (·.linked place)).map (·.named p) =
      (l.methods.map (·.linked place)).map (·.named q) := by
    rw [List.map_map, List.map_map]
    exact map_eq_of_rel h.methods fun _ _ hmn => hmn.named_linked hplace
  rw [named, named, NamedClass.mk.injEq]
  exact ⟨h.name, hproperties, hmethods⟩

end

end

namespace Container

/-- Containers with the same entries, some of which were linked in the first before. -/
structure Joins (t : Std.TreeMap String Nat) (c d : Container) : Prop where
  major : c.major = d.major
  minor : c.minor = d.minor
  globals : c.globals = d.globals
  functions : List.Forall₂ (FunctionEntry.Corresponds (Code.Joins t) c.pool d.pool) c.functions
    d.functions
  classes : List.Forall₂ (ClassEntry.Corresponds (Code.Joins t) c.pool d.pool) c.classes d.classes

variable {t : Std.TreeMap String Nat} {c d : Container}

theorem Joins.targets_eq (h : Joins t c d) : c.targets = d.targets :=
  Container.targets_eq (map_eq_of_rel h.functions fun _ _ hef => by rw [hef.name, hef.code.size_eq])

theorem Joins.linkable_iff (h : Joins t c d)
    (ht : ∀ f : String, t[f]?.isSome → c.targets[f]?.isSome) : c.Linkable ↔ d.Linkable := by
  have hfunctions : (∀ e ∈ c.functions, e.code.Linkable c.targets) ↔
      ∀ e ∈ d.functions, e.code.Linkable c.targets :=
    forall_mem_iff_of_rel h.functions fun _ _ hef => hef.code.linkable_iff ht
  have hclasses : (∀ k ∈ c.classes, ∀ e ∈ k.methods, e.code.Linkable c.targets) ↔
      ∀ k ∈ d.classes, ∀ e ∈ k.methods, e.code.Linkable c.targets :=
    forall_mem_iff_of_rel h.classes fun _ _ hkl =>
      forall_mem_iff_of_rel hkl.methods fun _ _ hmn => hmn.code.linkable_iff ht
  rw [Container.linkable_iff, Container.linkable_iff, ← h.targets_eq]
  exact and_congr hfunctions hclasses

/-- Once linked, both say the same. -/
theorem Joins.named_eq (h : Joins t c d) {place : String → UInt32}
    (hplace : ∀ f : String, t[f]?.isSome → place f = Code.placeIn t f) :
    (c.linked place).named = (d.linked place).named := by
  have hfunctions : (c.functions.map (·.linked place)).map (·.named c.pool) =
      (d.functions.map (·.linked place)).map (·.named d.pool) := by
    rw [List.map_map, List.map_map]
    exact map_eq_of_rel h.functions fun _ _ hef => hef.named_linked hplace
  have hclasses : (c.classes.map (·.linked place)).map (·.named c.pool) =
      (d.classes.map (·.linked place)).map (·.named d.pool) := by
    rw [List.map_map, List.map_map]
    exact map_eq_of_rel h.classes fun _ _ hkl => hkl.named_linked hplace
  rw [named, named, NamedContainer.mk.injEq]
  exact ⟨h.major, h.minor, congrArg NameTable.toList h.globals, hfunctions, hclasses⟩

end Container

end Lss
