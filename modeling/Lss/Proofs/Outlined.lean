import Lss.Proofs.Layouts
import Lss.Proofs.Ordered

/-!
# Declarations in one go or in two

A compiled container tells what its units declared: names and parameters of functions, and classes
with their layouts. Units compiled onto it are registered just as behind those units in one session,
and their bodies can refer to the same.
-/
namespace Lss

open Lower

namespace NameTable

variable {t u : NameTable}

theorem find?_intern (name : String) {other : String} {i : UInt16}
    (h : t.find? other = some i) : (t.intern name).2.find? other = some i := by
  unfold NameTable.intern
  split
  · exact h
  · split
    · rw [find?_push, h, Option.some_or]
    · exact h

/-- Names that were admitted keep their places. -/
theorem Sound.admitAll {names : List Token} (ht : t.Sound)
    (h : names.foldlM (fun t g => t.admit? g.text) t = some u) :
    u.Sound ∧ ∀ name i, t.find? name = some i → u.find? name = some i := by
  induction names generalizing t with
  | nil =>
    cases h
    exact ⟨ht, fun _ _ hi => hi⟩
  | cons name names ih =>
    rw [List.foldlM_cons] at h
    obtain ⟨grown, hgrown, h⟩ := Option.bind_eq_some_iff.mp h
    obtain ⟨i, hi⟩ := admit?_eq_some.mp hgrown
    have hsound := ht.intern name.text
    have hkept {other : String} {j : UInt16} (hj : t.find? other = some j) :=
      find?_intern name.text hj
    rw [hi] at hsound hkept
    obtain ⟨hu, hrest⟩ := ih hsound h
    exact ⟨hu, fun other j hj => hrest other j (hkept hj)⟩

end NameTable

/-- What was there under other keys is still there. -/
theorem getElem?_foldl_insert {α β : Type} {f : α → String} {g : α → β} {l : List α}
    {m : Std.TreeMap String β} {k : String} (h : ∀ a ∈ l, f a ≠ k) :
    (l.foldl (fun m a => m.insert (f a) (g a)) m)[k]? = m[k]? := by
  induction l generalizing m with
  | nil => rfl
  | cons a l ih =>
    rw [List.foldl_cons, ih fun b hb => h b (List.mem_cons_of_mem a hb),
      Std.TreeMap.getElem?_insert, if_neg]
    exact fun heq => h a List.mem_cons_self (Std.LawfulEqCmp.eq_of_compare heq)

theorem exists_of_rel {α β : Type} {R : α → β → Prop} {a : α} {y : Option β}
    (h : Option.Rel R (some a) y) : ∃ b, y = some b ∧ R a b := by
  cases h with
  | some hab => exact ⟨_, rfl, hab⟩

/-- Layouts are added in front. -/
theorem ClassLayout.foldl_extend (ds : List ClassDecl) (ls : List ClassLayout) :
    ∃ new, ds.foldl extend ls = new ++ ls ∧ ∀ l ∈ new, ∃ d ∈ ds, d.name.text = l.name := by
  induction ds generalizing ls with
  | nil => exact ⟨[], rfl, by simp⟩
  | cons d ds ih =>
    obtain ⟨new, hnew, hnames⟩ := ih (extend ls d)
    refine ⟨new ++ [derive d (d.base.bind fun base => ls.find? (·.name == base.text))], ?_, ?_⟩
    · rw [List.foldl_cons, hnew, List.append_assoc]
      rfl
    · intro l hl
      rcases List.mem_append.mp hl with hl | hl
      · obtain ⟨d', hd', hname⟩ := hnames l hl
        exact ⟨d', List.mem_cons_of_mem d hd', hname⟩
      · rw [List.mem_singleton.mp hl]
        exact ⟨d, List.mem_cons_self, rfl⟩

namespace Container

theorem isSome_findClass? (c : Container) (name : String) :
    (c.findClass? name).isSome ↔ name ∈ c.classes.map (·.name) := by
  rw [findClass?, List.findIdx?_isSome, List.any_eq_true, List.mem_map]
  exact exists_congr fun k => and_congr_right fun _ => beq_iff_eq

theorem findClass?_eq_none (c : Container) (name : String) :
    c.findClass? name = none ↔ name ∉ c.classes.map (·.name) := by
  rw [← isSome_findClass?, Bool.not_eq_true, Option.isSome_eq_false_iff, Option.isNone_iff_eq_none]

theorem mem_signatures_iff (c : Container) (name : String) :
    name ∈ Session.signatures c ↔ name ∈ c.functions.map (·.name) := by
  constructor
  · intro h
    rw [Std.TreeMap.mem_iff_isSome_getElem?] at h
    obtain ⟨argc, hargc⟩ := Option.isSome_iff_exists.mp h
    obtain ⟨e, he, hname, -⟩ := Session.mem_signatures hargc
    exact List.mem_map.mpr ⟨e, he, hname⟩
  · intro h
    obtain ⟨e, he, rfl⟩ := List.mem_map.mp h
    exact Session.name_mem_signatures he

/-- A container has the functions, the globals and the classes that units declare. -/
structure Outlines (c : Container) (settings : Settings) (units : List SourceUnit) : Prop where
  registers : (ofSettings settings).Registers units c.globals
  sound : c.globals.Sound
  functions : c.functions.map (fun e => (e.name, e.parameterCount)) =
    (newFunctions units).map fun f => (f.name.text, Session.parameterCount f)
  layouts : List.Forall₂ ClassLayout.Alike (c.classes.map (ClassLayout.ofEntry · c.symbols)).reverse
    (ClassLayout.all (ofSettings settings) ((ofSettings settings).orderedClasses units))

section

variable {c : Container} {settings : Settings} {A B : List SourceUnit} {globals : NameTable}

theorem newFunctions_append (A B : List SourceUnit) :
    newFunctions (A ++ B) = newFunctions A ++ newFunctions B := List.flatMap_append

theorem newClasses_append (A B : List SourceUnit) :
    newClasses (A ++ B) = newClasses A ++ newClasses B := List.flatMap_append

theorem Outlines.function_names (h : c.Outlines settings A) :
    c.functions.map (·.name) = (newFunctions A).map (·.name.text) := by
  have := congrArg (List.map Prod.fst) h.functions
  simpa [List.map_map, Function.comp_def] using this

theorem Outlines.class_names (h : c.Outlines settings A) :
    c.classes.map (·.name) = ((ofSettings settings).orderedClasses A).map (·.name.text) := by
  have hnames : (c.classes.map (ClassLayout.ofEntry · c.symbols)).reverse.map (·.name) =
      (((ofSettings settings).orderedClasses A).map (·.name.text)).reverse := by
    rw [map_eq_of_rel h.layouts fun _ _ hlm => hlm.name, ClassLayout.all_eq,
      ClassLayout.map_name_foldl_extend]
    exact List.append_nil _
  rw [List.map_reverse, List.map_map] at hnames
  exact List.reverse_injective hnames

theorem Outlines.mem_class_names (h : c.Outlines settings A) (name : String) :
    name ∈ c.classes.map (·.name) ↔ name ∈ (newClasses A).map (·.name.text) := by
  rw [h.class_names]
  exact ((ordered_perm h.registers.order).map _).mem_iff

/-! Registration. -/

/-- Classes of both with names of their own. -/
theorem Outlines.split (h : c.Outlines settings A)
    (hnodup : ((newClasses A ++ newClasses B).map (·.name.text)).Nodup) :
    ClassOrder.Split (newClasses A) (newClasses B) (ofSettings settings) c where
  nodup := hnodup
  neither name := rfl
  first name := by
    rw [isSome_findClass?, h.mem_class_names, List.mem_map]

theorem Outlines.nodup_classes_iff (h : c.Outlines settings A) :
    ((newClasses A ++ newClasses B).map (·.name.text)).Nodup ↔
      ((newClasses B).map (·.name.text)).Nodup ∧
        ∀ d ∈ newClasses B, c.findClass? d.name.text = none := by
  have hold := h.registers.classes
  simp only [findClass?_eq_none, h.mem_class_names]
  rw [List.map_append, List.nodup_append']
  constructor
  · rintro ⟨-, hnew, hdisjoint⟩
    exact ⟨hnew, fun d hd hmem => hdisjoint hmem (List.mem_map_of_mem hd)⟩
  · rintro ⟨hnew, hfresh⟩
    refine ⟨hold, hnew, fun name hmem hmem' => ?_⟩
    obtain ⟨d, hd, rfl⟩ := List.mem_map.mp hmem'
    exact hfresh d hd hmem

theorem Outlines.nodup_functions_iff (h : c.Outlines settings A) :
    ((newFunctions A ++ newFunctions B).map (·.name.text)).Nodup ↔
      ((newFunctions B).map (·.name.text)).Nodup ∧
        ∀ f ∈ newFunctions B, f.name.text ∉ Session.signatures c := by
  have hold := h.registers.functions
  simp only [mem_signatures_iff, h.function_names]
  rw [List.map_append, List.nodup_append']
  constructor
  · rintro ⟨-, hnew, hdisjoint⟩
    exact ⟨hnew, fun f hf hmem => hdisjoint hmem (List.mem_map_of_mem hf)⟩
  · rintro ⟨hnew, hfresh⟩
    refine ⟨hold, hnew, fun name hmem hmem' => ?_⟩
    obtain ⟨f, hf, rfl⟩ := List.mem_map.mp hmem'
    exact hfresh f hf hmem

/-- Units are registered onto the container exactly if they are behind its own units. -/
theorem Outlines.registers_iff (h : c.Outlines settings A) :
    c.Registers B globals ↔ (ofSettings settings).Registers (A ++ B) globals := by
  have hglobals : ((A ++ B).flatMap (·.globals)).foldlM (fun t g => t.admit? g.text)
      (ofSettings settings).globals =
      (B.flatMap (·.globals)).foldlM (fun t g => t.admit? g.text) c.globals := by
    rw [List.flatMap_append, List.foldlM_append, h.registers.globals]
    rfl
  have hempty (name : String) : name ∉ Session.signatures (ofSettings settings) := by
    rw [mem_signatures_iff]
    exact List.not_mem_nil
  constructor
  · intro hB
    have hclasses := h.nodup_classes_iff.mpr ⟨hB.classes, hB.freshClasses⟩
    refine ⟨?_, fun f _ => hempty f.name.text, hglobals.trans hB.globals, ?_, fun d _ => rfl, ?_,
      ?_⟩
    · rw [newFunctions_append]
      exact h.nodup_functions_iff.mpr ⟨hB.functions, hB.freshFunctions⟩
    · rw [newClasses_append]
      exact hclasses
    · rw [newClasses_append, (orderClasses_append (h.split hclasses) h.registers.order).1]
      exact hB.order
    · rw [newClasses_append]
      exact List.forall_mem_append.mpr ⟨h.registers.methods, hB.methods⟩
  · intro hAB
    have hfunctions := hAB.functions
    rw [newFunctions_append] at hfunctions
    have hclasses := hAB.classes
    have horder := hAB.order
    have hmethods := hAB.methods
    rw [newClasses_append] at hclasses horder hmethods
    rw [(orderClasses_append (h.split hclasses) h.registers.order).1] at horder
    obtain ⟨hnodup, hfresh⟩ := h.nodup_functions_iff.mp hfunctions
    obtain ⟨hnodup', hfresh'⟩ := h.nodup_classes_iff.mp hclasses
    exact ⟨hnodup, hfresh, hglobals.symm.trans hAB.globals, hnodup', hfresh', horder,
      (List.forall_mem_append.mp hmethods).2⟩

theorem Outlines.orderedClasses_append (h : c.Outlines settings A)
    (hB : c.Registers B globals) :
    (ofSettings settings).orderedClasses (A ++ B) =
      (ofSettings settings).orderedClasses A ++ c.orderedClasses B := by
  have hclasses := h.nodup_classes_iff.mpr ⟨hB.classes, hB.freshClasses⟩
  unfold orderedClasses
  rw [newClasses_append]
  exact (orderClasses_append (h.split hclasses) h.registers.order).2

/-! What bodies can refer to. -/

/-- Signatures of the functions of units. -/
theorem Outlines.functions_eq (h : c.Outlines settings A) (globals : NameTable) :
    (c.declaredBy settings B globals).functions =
      ((ofSettings settings).declaredBy settings (A ++ B) globals).functions := by
  have hsignatures : Session.signatures c = (newFunctions A).foldl
      (fun m f => m.insert f.name.text (Session.parameterCount f)) {} := by
    have hpairs (c : Container) : Session.signatures c =
        (c.functions.map fun e => (e.name, e.parameterCount)).foldl
          (fun m x => m.insert x.1 x.2) {} := by
      rw [List.foldl_map]
      rfl
    rw [hpairs, h.functions, List.foldl_map]
  unfold declaredBy
  rw [newFunctions_append, List.foldl_append, hsignatures]
  rfl

theorem Outlines.layouts_append (h : c.Outlines settings A) (hB : c.Registers B globals) :
    List.Forall₂ ClassLayout.Alike (ClassLayout.all c (c.orderedClasses B))
      (ClassLayout.all (ofSettings settings) ((ofSettings settings).orderedClasses (A ++ B))) := by
  rw [h.orderedClasses_append hB, ClassLayout.all_eq, ClassLayout.all_eq, List.foldl_append]
  exact ClassLayout.Alike.foldl_extend h.layouts _

theorem classes_declaredBy (c : Container) (units : List SourceUnit) (globals : NameTable)
    (name : String) : (c.declaredBy settings units globals).classes[name]? =
      (ClassLayout.all c (c.orderedClasses units)).find? (·.name == name) :=
  Session.getElem?_layouts c _ name

/-- Bodies of new units have in the container what they have behind its units. -/
theorem Outlines.below_joint (h : c.Outlines settings A) (hB : c.Registers B globals) :
    (c.declaredBy settings B globals).Below
      ((ofSettings settings).declaredBy settings (A ++ B) globals) where
  globals _ _ hi := hi
  functions name count hcount := by
    rw [← h.functions_eq]
    exact hcount
  classes name l hl := by
    rw [classes_declaredBy] at hl ⊢
    refine exists_of_rel ?_
    rw [← hl]
    exact rel_find? (fun _ _ hlm => hlm.name) (h.layouts_append hB) name
  lineNumbers := rfl

theorem Outlines.joint_below (h : c.Outlines settings A) (hB : c.Registers B globals) :
    ((ofSettings settings).declaredBy settings (A ++ B) globals).Below
      (c.declaredBy settings B globals) where
  globals _ _ hi := hi
  functions name count hcount := by
    rw [h.functions_eq]
    exact hcount
  classes name l hl := by
    rw [classes_declaredBy] at hl ⊢
    refine exists_of_rel ?_
    rw [← hl]
    have hflip := List.Forall₂.flip ((h.layouts_append hB).imp fun _ _ hlm => hlm.symm)
    exact rel_find? (fun _ _ hlm => hlm.name) hflip name
  lineNumbers := rfl

/-- Bodies of the first units have alone what they have before others. -/
theorem Outlines.below_append (h : c.Outlines settings A) (hB : c.Registers B globals) :
    ((ofSettings settings).declaredBy settings A c.globals).Below
      ((ofSettings settings).declaredBy settings (A ++ B) globals) where
  globals := (h.sound.admitAll hB.globals).2
  functions name count hcount := by
    have hnodup := h.nodup_functions_iff.mpr ⟨hB.functions, hB.freshFunctions⟩
    rw [List.map_append, List.nodup_append'] at hnodup
    unfold declaredBy at hcount ⊢
    rw [newFunctions_append, List.foldl_append]
    rw [getElem?_foldl_insert (f := fun f : Subroutine => f.name.text)]
    · exact hcount
    · rintro f hf rfl
      rcases mem_of_foldl_insert (f := fun f : Subroutine => f.name.text) hcount with
        hnone | ⟨g, hg, hname, -⟩
      · simp [Session.signatures, ofSettings] at hnone
      · exact hnodup.2.2 (List.mem_map.mpr ⟨g, hg, hname⟩) (List.mem_map_of_mem hf)
  classes name l hl := by
    have hnodup := h.nodup_classes_iff.mpr ⟨hB.classes, hB.freshClasses⟩
    rw [List.map_append, List.nodup_append'] at hnodup
    rw [classes_declaredBy] at hl ⊢
    refine ⟨l, ?_, rfl, fun _ => rfl⟩
    rw [h.orderedClasses_append hB, ClassLayout.all_eq, List.foldl_append, ← ClassLayout.all_eq]
    obtain ⟨new, hnew, hnames⟩ := ClassLayout.foldl_extend (c.orderedClasses B)
      (ClassLayout.all (ofSettings settings) ((ofSettings settings).orderedClasses A))
    rw [hnew, List.find?_append, List.find?_eq_none.mpr, hl]
    · rfl
    · intro m hm heq
      have hold : name ∈ (newClasses A).map (·.name.text) := by
        obtain ⟨old, hold, hnames⟩ :=
          ClassLayout.foldl_extend ((ofSettings settings).orderedClasses A) []
        have hmem : l ∈ old ++ [] := hold ▸ List.mem_of_find?_eq_some hl
        rw [List.append_nil] at hmem
        obtain ⟨d, hd, hname⟩ := hnames l hmem
        have hl : l.name = name := by simpa using List.find?_some hl
        rw [← hl, ← hname]
        exact List.mem_map_of_mem ((mem_orderedClasses h.registers).mp hd)
      obtain ⟨d, hd, hname⟩ := hnames m hm
      have hd := (mem_orderedClasses hB).mp hd
      refine hnodup.2.2 hold ?_
      rw [← beq_iff_eq.mp heq, ← hname]
      exact List.mem_map_of_mem hd
  lineNumbers := rfl

end

end Container

end Lss
