import Lss.Lifting.Projection
import Lss.Proofs.Decompiled
import Lss.Proofs.Flattened
import Lss.Proofs.Inferred

/-!
# Where the files of a unit are

Joining a name to a path adds a part to where the path leads. The files of a unit are told apart by
their last parts and by the directories below which they are, so no two have one place if functions
have different names and classes have. The directory of a class is the directory of its base and one
step further; that the bases come to an end is what was found when they were inferred.
-/
namespace Lss

namespace Path

variable {base n p q : String}

/-- A name of a file or a directory, which leads down from wherever it is followed. -/
structure Plain (n : String) : Prop where
  nonempty : n ≠ ""
  single : '/' ∉ n.toList
  down : n ≠ "."

/-- Paths lead to the same place if they have the same parts and both start from the root, or
neither does. -/
structure Place where
  absolute : Bool
  parts : List String
deriving DecidableEq

def place (p : String) : Place := ⟨isAbsolute p, parts p⟩

def Place.below (p : Place) (names : List String) : Place := { p with parts := p.parts ++ names }

def Place.text (p : Place) : String := ofParts p.absolute p.parts

theorem Place.below_below (p : Place) (names more : List String) :
    (p.below names).below more = p.below (names ++ more) :=
  congrArg (Place.mk p.absolute) (List.append_assoc ..)

theorem Place.below_injective (p : Place) : Function.Injective p.below := fun _ _ h =>
  List.append_cancel_left (congrArg Place.parts h)

theorem steps_slash (p q : String) : steps (p ++ "/" ++ q) = steps p ++ steps q := by
  have htext : (p ++ "/" ++ q).toList = p.toList ++ '/' :: q.toList := by
    rw [String.toList_append, String.toList_append, List.append_assoc]
    rfl
  simp only [steps, htext, List.splitOn_append_cons_self, List.map_append, List.filter_append]

theorem Plain.steps_eq (h : Plain n) : steps n = [n] := by
  rw [steps, List.splitOn_eq_singleton h.single, List.map_singleton, String.ofList_toList,
    List.filter_singleton, bne_iff_ne.mpr h.nonempty]
  rfl

theorem steps_empty : steps "" = [] := rfl

theorem exists_slash (h : endsInSlash base) : ∃ p, base = p ++ "/" := by
  have hlast : base.toList.getLast? = some '/' := beq_iff_eq.mp h
  obtain ⟨cs, hcs⟩ := List.getLast?_eq_some_iff.mp hlast
  refine ⟨String.ofList cs, ?_⟩
  rw [← String.toList_inj, String.toList_append, hcs, String.toList_ofList]
  rfl

theorem Plain.not_isAbsolute (h : Plain n) : isAbsolute n = false := by
  rw [isAbsolute, beq_eq_false_iff_ne]
  exact fun hhead => h.single (List.mem_of_head? hhead)

theorem Plain.join_eq (h : Plain n) (base : String) : join base n =
    if base == "" || endsInSlash base then base ++ n else base ++ "/" ++ n := by
  rw [join, h.not_isAbsolute]
  rfl

theorem Plain.parts_join (h : Plain n) (base : String) :
    parts (join base n) = parts base ++ [n] := by
  have hsteps : steps (join base n) = steps base ++ [n] := by
    rw [h.join_eq]
    split
    · next hbase =>
      rcases Bool.or_eq_true_iff.mp hbase with hempty | hslash
      · rw [beq_iff_eq.mp hempty, String.empty_append, h.steps_eq, steps_empty]
        rfl
      · obtain ⟨p, rfl⟩ := exists_slash hslash
        have hself := steps_slash p ""
        rw [String.append_empty, steps_empty, List.append_nil] at hself
        rw [steps_slash, h.steps_eq, hself]
    · rw [steps_slash, h.steps_eq]
  rw [parts, hsteps, List.filter_append, List.filter_singleton, bne_iff_ne.mpr h.down]
  rfl

theorem isAbsolute_append (h : p ≠ "") (q : String) : isAbsolute (p ++ q) = isAbsolute p := by
  rw [isAbsolute, isAbsolute, String.toList_append, List.head?_append_of_ne_nil]
  exact fun hnil => h (String.toList_inj.mp hnil)

theorem Plain.isAbsolute_join (h : Plain n) (base : String) :
    isAbsolute (join base n) = isAbsolute base := by
  rw [h.join_eq]
  by_cases hempty : base = ""
  · subst hempty
    exact h.not_isAbsolute
  · split
    · exact isAbsolute_append hempty n
    · rw [String.append_assoc]
      exact isAbsolute_append hempty _

theorem Plain.place_join (h : Plain n) (base : String) :
    place (join base n) = (place base).below [n] := by
  rw [place, h.isAbsolute_join, h.parts_join]
  rfl

theorem place_foldl_join {names : List String} (h : ∀ n ∈ names, Plain n) (base : String) :
    place (names.foldl join base) = (place base).below names := by
  induction names generalizing base with
  | nil => rw [List.foldl_nil, Place.below, List.append_nil]
  | cons n names ih =>
    obtain ⟨hn, hnames⟩ := List.forall_mem_cons.mp h
    rw [List.foldl_cons, ih hnames, hn.place_join, Place.below_below, List.singleton_append]

/-- No piece between separators has one in it. -/
theorem not_mem_of_mem_splitOn {sep : Char} {piece cs : List Char} (h : piece ∈ cs.splitOn sep) :
    sep ∉ piece := by
  induction cs generalizing piece with
  | nil =>
    rw [List.splitOn_nil, List.mem_singleton] at h
    rw [h]
    exact List.not_mem_nil
  | cons c cs ih =>
    rw [List.splitOn_cons_eq_if_modifyHead] at h
    split at h
    · rcases List.mem_cons.mp h with rfl | h
      · exact List.not_mem_nil
      · exact ih h
    · next hc =>
      cases hpieces : cs.splitOn sep with
      | nil => exact absurd hpieces (List.splitOn_ne_nil _ _)
      | cons first rest =>
        rw [hpieces] at h ih
        rcases List.mem_cons.mp h with rfl | h
        · rw [List.mem_cons, not_or]
          exact ⟨fun heq => hc (beq_iff_eq.mpr heq.symm), ih List.mem_cons_self⟩
        · exact ih (List.mem_cons_of_mem _ h)

theorem plain_of_mem_parts (h : n ∈ parts p) : Plain n := by
  obtain ⟨hstep, hdown⟩ := List.mem_filter.mp h
  obtain ⟨hpiece, hnonempty⟩ := List.mem_filter.mp hstep
  obtain ⟨cs, hcs, rfl⟩ := List.mem_map.mp hpiece
  refine ⟨bne_iff_ne.mp hnonempty, ?_, bne_iff_ne.mp hdown⟩
  rw [String.toList_ofList]
  exact not_mem_of_mem_splitOn hcs

theorem Plain.not_endsInSlash (h : Plain n) (p : String) :
    p ++ n ≠ "" ∧ endsInSlash (p ++ n) = false := by
  have hnil : n.toList ≠ [] := fun hnil => h.nonempty (String.toList_inj.mp hnil)
  constructor
  · rw [ne_eq, ← String.toList_inj, String.toList_append]
    exact List.append_ne_nil_of_right_ne_nil _ hnil
  · rw [endsInSlash, beq_eq_false_iff_ne, String.toList_append,
      List.getLast?_append_of_ne_nil _ hnil]
    exact fun hlast => h.single (List.mem_of_getLast? hlast)

/-- Below a path that was put together from its parts stands one put together from a part more. -/
theorem Plain.join_ofParts (hn : Plain n) (absolute : Bool) {ps : List String}
    (hps : ∀ p ∈ ps, Plain p) : join (ofParts absolute ps) n = ofParts absolute (ps ++ [n]) := by
  rw [hn.join_eq]
  rcases List.eq_nil_or_concat ps with rfl | ⟨qs, q, rfl⟩
  · cases absolute <;> rfl
  · rw [List.concat_eq_append] at hps ⊢
    have hq := hps q (List.mem_append_right _ List.mem_cons_self)
    obtain ⟨p, hp⟩ : ∃ p, ofParts absolute (qs ++ [q]) = p ++ q := by
      cases qs with
      | nil => exact ⟨_, rfl⟩
      | cons r qs =>
        refine ⟨(if absolute then "/" else "") ++ ("/".intercalate (r :: qs) ++ "/"), ?_⟩
        rw [ofParts, String.intercalate_append_of_ne_nil (List.cons_ne_nil _ _)
          (List.cons_ne_nil _ _), String.intercalate_singleton]
        simp only [String.append_assoc]
    obtain ⟨hempty, hslash⟩ := hq.not_endsInSlash p
    rw [hp, hslash, Bool.or_false, if_neg (mt beq_iff_eq.mp hempty), ← hp, ofParts, ofParts,
      String.intercalate_append_of_ne_nil (l := qs ++ [q]) (by simp) (List.cons_ne_nil _ _),
      String.intercalate_singleton]
    simp only [String.append_assoc]

theorem Plain.join_text (hn : Plain n) {p : Place} (h : ∀ q ∈ p.parts, Plain q) :
    join p.text n = (p.below [n]).text :=
  hn.join_ofParts p.absolute h

theorem place_text (p : Place) (h : ∀ q ∈ p.parts, Plain q) : place p.text = p := by
  obtain ⟨absolute, ps⟩ := p
  induction ps using List.reverseRecOn with
  | nil => cases absolute <;> rfl
  | append_singleton ps q ih =>
    obtain ⟨hps, hq⟩ := List.forall_mem_append.mp h
    have hq : Plain q := hq q List.mem_cons_self
    have hjoin := hq.join_text (p := ⟨absolute, ps⟩) hps
    calc place (Place.text ⟨absolute, ps ++ [q]⟩)
      _ = place (join (Place.text ⟨absolute, ps⟩) q) := congrArg place hjoin.symm
      _ = (place (Place.text ⟨absolute, ps⟩)).below [q] := hq.place_join _
      _ = _ := by rw [ih hps]; rfl

theorem Plain.parent_join (hn : Plain n) (base : String) :
    parent (join base n) = (place base).text := by
  rw [parent, hn.isAbsolute_join, hn.parts_join, List.dropLast_concat]
  rfl

end Path

/-! Names. -/

theorem IsName.continuesWord {name : String} (h : IsName name) :
    name.toList ≠ [] ∧ ∀ c ∈ name.toList, Lexeme.continuesWord c := by
  refine ⟨h.ne_nil, ?_⟩
  unfold IsName at h
  generalize name.toList = cs, hkind : TokenKind.identifier = kind at h
  cases h with
  | word hc hcs => exact List.forall_mem_cons.mpr ⟨Lexeme.continuesWord_of_startsWord hc, hcs⟩
  | mark hmark => rw [← hkind] at hmark; cases hmark
  | _ => cases hkind

theorem IsName.plain {name : String} (h : IsName name) : Path.Plain name := by
  obtain ⟨hne, hword⟩ := h.continuesWord
  refine ⟨fun hempty => hne (hempty ▸ rfl), fun hslash => ?_, ?_⟩
  · exact absurd (hword _ hslash) (by decide)
  · rintro rfl
    exact absurd (hword '.' List.mem_cons_self) (by decide)

namespace SourceUnit

theorem plain_sourceName {name : String} (h : '/' ∉ name.toList) :
    Path.Plain (sourceName name) := by
  have htext : (sourceName name).toList = name.toList ++ ".lss".toList := String.toList_append
  have hlong (short : String) (hshort : short.toList.length < 4) : sourceName name ≠ short := by
    rintro rfl
    rw [htext, List.length_append] at hshort
    exact absurd hshort (by simp)
  refine ⟨hlong "" (by decide), ?_, hlong "." (by decide)⟩
  rw [htext, List.mem_append, not_or]
  exact ⟨h, by decide⟩

theorem sourceName_injective : Function.Injective sourceName := fun _ _ h =>
  (String.append_left_inj _).mp h

variable {u : SourceUnit} {d k : ClassDecl} {ds : List ClassDecl} {base : Option Token}
  {dir : String}

theorem mem_of_class? {name : String} (h : u.class? name = some d) :
    d ∈ u.classes ∧ d.name.text = name := by
  unfold class? at h
  exact ⟨List.mem_of_find?_eq_some h, by simpa using List.find?_some h⟩

inductive Bases (u : SourceUnit) : Option Token → List ClassDecl → Prop
  | root : Bases u none []
  | extend {t : Token} {d : ClassDecl} {ds : List ClassDecl} : u.class? t.text = some d →
      Bases u d.base ds → Bases u (some t) (d :: ds)

theorem Bases.mem (h : u.Bases base ds) : ∀ d ∈ ds, d ∈ u.classes := by
  induction h with
  | root => exact fun d hd => absurd hd List.not_mem_nil
  | extend hd _ ih => exact List.forall_mem_cons.mpr ⟨(mem_of_class? hd).1, ih⟩

theorem Bases.ancestorsOnto (h : u.Bases base ds) (acc : List String) {n : Nat}
    (hn : ds.length ≤ n) :
    u.ancestorsOnto acc n base = (ds.map (·.name.text)).reverse ++ acc := by
  induction h generalizing acc n with
  | root => cases n <;> rfl
  | @extend t d ds hd _ ih =>
    obtain ⟨n, rfl⟩ := Nat.exists_eq_add_of_le' (Nat.le_trans (Nat.le_add_left 1 _) hn)
    rw [SourceUnit.ancestorsOnto, hd]
    dsimp only
    rw [ih _ (Nat.le_of_succ_le_succ hn), List.map_cons, List.reverse_cons, List.append_assoc,
      List.singleton_append]

/-- Functions have different names, as have classes, and from each class the bases lead to one that
has none. -/
structure Orderly (u : SourceUnit) : Prop where
  functions : ∀ f ∈ u.functions, IsName f.name.text
  functionNames : (u.functions.map (·.name.text)).Nodup
  classes : ∀ d ∈ u.classes, IsName d.name.text
  classNames : (u.classes.map (·.name.text)).Nodup
  bases : ∀ d ∈ u.classes, ∃ ds, u.Bases d.base ds ∧ ds.length ≤ u.classes.length

theorem Orderly.ancestors_eq (h : u.Orderly) (hk : k ∈ u.classes) :
    ∃ ds, u.Bases k.base ds ∧ u.ancestors k = (ds.map (·.name.text)).reverse := by
  obtain ⟨ds, hds, hlength⟩ := h.bases k hk
  refine ⟨ds, hds, ?_⟩
  rw [ancestors, hds.ancestorsOnto [] hlength, List.append_nil]

theorem Bases.unique {ds' : List ClassDecl} (h : u.Bases base ds) (h' : u.Bases base ds') :
    ds' = ds := by
  induction h generalizing ds' with
  | root => cases h'; rfl
  | extend hd _ ih =>
    cases h' with
    | extend hd' h' =>
      cases hd.symm.trans hd'
      rw [ih h']

theorem Orderly.ancestors_root (h : u.Orderly) (hk : k ∈ u.classes) (hbase : k.base = none) :
    u.ancestors k = [] := by
  obtain ⟨ds, hds, heq⟩ := h.ancestors_eq hk
  rw [hbase] at hds
  cases hds
  exact heq

theorem Orderly.ancestors_derived (h : u.Orderly) (hk : k ∈ u.classes) {t : Token}
    (hbase : k.base = some t) : ∃ d ∈ u.classes, d.name.text = t.text ∧
      u.ancestors k = u.ancestors d ++ [t.text] := by
  obtain ⟨ds, hds, heq⟩ := h.ancestors_eq hk
  rw [hbase] at hds
  cases hds with
  | @extend _ d ds hd hds =>
    obtain ⟨hmem, hname⟩ := mem_of_class? hd
    obtain ⟨ds', hds', heq'⟩ := h.ancestors_eq hmem
    cases hds.unique hds'
    refine ⟨d, hmem, hname, ?_⟩
    rw [heq, heq', List.map_cons, List.reverse_cons, hname]

theorem Orderly.plain_ancestors (h : u.Orderly) (hk : k ∈ u.classes) :
    ∀ n ∈ u.ancestors k, Path.Plain n := by
  intro n hn
  obtain ⟨ds, hds, heq⟩ := h.ancestors_eq hk
  rw [heq, List.mem_reverse] at hn
  obtain ⟨d, hd, rfl⟩ := List.mem_map.mp hn
  exact (h.classes d (hds.mem d hd)).plain

/-- Where the files of a unit are below its directory, in the order in which they are written. -/
def locations (u : SourceUnit) : List (List String) :=
  (if u.globals.isEmpty then [] else [[sourceName "globals"]]) ++
    (u.functions.map fun f => ["functions", sourceName f.name.text]) ++
    u.classes.map fun k => "classes" :: (u.ancestors k ++ [sourceName k.name.text])

theorem place_globalsPath (dir : String) :
    Path.place (globalsPath dir) = (Path.place dir).below [sourceName "globals"] :=
  (plain_sourceName (by decide)).place_join dir

theorem place_functionPath {f : Subroutine} (hf : IsName f.name.text) (dir : String) :
    Path.place (functionPath dir f) =
      (Path.place dir).below ["functions", sourceName f.name.text] := by
  have hfunctions : Path.Plain "functions" := ⟨by decide, by decide, by decide⟩
  rw [functionPath, (plain_sourceName hf.plain.single).place_join, hfunctions.place_join,
    Path.Place.below_below]
  rfl

theorem plain_classes : Path.Plain "classes" := ⟨by decide, by decide, by decide⟩

/-- The directory that the file of a class is in. -/
theorem Orderly.place_bases (h : u.Orderly) (hk : k ∈ u.classes) (dir : String) :
    Path.place ((u.ancestors k).foldl Path.join (Path.join dir "classes")) =
      (Path.place dir).below ("classes" :: u.ancestors k) := by
  rw [Path.place_foldl_join (h.plain_ancestors hk), plain_classes.place_join,
    Path.Place.below_below]
  rfl

theorem Orderly.place_classPath (h : u.Orderly) (hk : k ∈ u.classes) (dir : String) :
    Path.place (u.classPath dir k) =
      (Path.place dir).below ("classes" :: (u.ancestors k ++ [sourceName k.name.text])) := by
  rw [classPath, (plain_sourceName (h.classes k hk).plain.single).place_join, h.place_bases hk,
    Path.Place.below_below]
  rfl

theorem Orderly.parent_classPath (h : u.Orderly) (hk : k ∈ u.classes) (dir : String) :
    Path.parent (u.classPath dir k) =
      ((Path.place dir).below ("classes" :: u.ancestors k)).text := by
  rw [classPath, (plain_sourceName (h.classes k hk).plain.single).parent_join, h.place_bases hk]

theorem Orderly.places_files (h : u.Orderly) (indent dir : String) :
    (u.files indent dir).map (Path.place ·.path) = u.locations.map (Path.place dir).below := by
  have hfunctions : u.functions.map (fun f => Path.place (functionPath dir f)) =
      u.functions.map fun f => (Path.place dir).below ["functions", sourceName f.name.text] :=
    List.map_congr_left fun f hf => place_functionPath (h.functions f hf) dir
  have hclasses : u.classes.map (fun k => Path.place (u.classPath dir k)) =
      u.classes.map fun k => (Path.place dir).below
        ("classes" :: (u.ancestors k ++ [sourceName k.name.text])) :=
    List.map_congr_left fun k hk => h.place_classPath hk dir
  simp only [files, locations, List.map_append, List.map_map, Function.comp_def, hfunctions,
    hclasses]
  split
  · rfl
  · rw [List.map_singleton, List.map_singleton, place_globalsPath]

/-- Files whose last steps are different names are at different places. -/
theorem nodup_of_getLast? {α : Type} {as : List α} {name : α → String} {steps : α → List String}
    (hnames : (as.map name).Nodup)
    (hlast : ∀ a, (steps a).getLast? = some (sourceName (name a))) : (as.map steps).Nodup := by
  have hmap : (as.map steps).map List.getLast? = (as.map name).map (some ∘ sourceName) := by
    rw [List.map_map, List.map_map]
    exact List.map_congr_left fun a _ => hlast a
  exact .of_map List.getLast? (hmap ▸
    hnames.map ((Option.some_injective _).comp sourceName_injective))

theorem Orderly.nodup_locations (h : u.Orderly) : u.locations.Nodup := by
  have hglobals : (if u.globals.isEmpty then [] else [[sourceName "globals"]]).Nodup := by
    split
    · exact List.nodup_nil
    · exact List.nodup_singleton _
  have hfunctions : (u.functions.map fun f => ["functions", sourceName f.name.text]).Nodup :=
    nodup_of_getLast? h.functionNames fun _ => rfl
  have hclasses : (u.classes.map fun k =>
      "classes" :: (u.ancestors k ++ [sourceName k.name.text])).Nodup :=
    nodup_of_getLast? h.classNames fun k => by rw [← List.cons_append, List.getLast?_concat]
  rw [locations, List.nodup_append, List.nodup_append]
  refine ⟨⟨hglobals, hfunctions, fun l hl l' hl' => ?_⟩, hclasses, fun l hl l' hl' => ?_⟩
  · obtain ⟨f, -, rfl⟩ := List.mem_map.mp hl'
    split at hl
    · cases hl
    · rw [List.mem_singleton.mp hl]
      exact fun h => absurd (List.cons.inj h).1 (by decide)
  · obtain ⟨k, -, rfl⟩ := List.mem_map.mp hl'
    rcases List.mem_append.mp hl with hl | hl
    · split at hl
      · cases hl
      · rw [List.mem_singleton.mp hl]
        exact fun h => absurd (List.cons.inj h).1 (by decide)
    · obtain ⟨f, -, rfl⟩ := List.mem_map.mp hl
      exact fun h => absurd (List.cons.inj h).1 (by decide)

/-- No two files of an orderly unit are at the same place. -/
theorem Orderly.nodup_places (h : u.Orderly) (indent dir : String) :
    ((u.files indent dir).map (Path.place ·.path)).Nodup := by
  rw [h.places_files]
  exact h.nodup_locations.map (Path.place dir).below_injective

/-- The last part of a location has a dot in it, and no other part has. -/
theorem Orderly.mem_locations (h : u.Orderly) {l : List String} (hl : l ∈ u.locations) :
    ∃ dirs name, l = dirs ++ [sourceName name] ∧ ∀ q ∈ dirs, '.' ∉ q.toList := by
  have hone (q : String) (hq : '.' ∉ q.toList) : ∀ r ∈ [q], '.' ∉ r.toList :=
    List.forall_mem_singleton.mpr hq
  rcases List.mem_append.mp hl with hl | hl
  · rcases List.mem_append.mp hl with hl | hl
    · split at hl
      · cases hl
      · exact ⟨[], _, List.mem_singleton.mp hl, fun q hq => absurd hq List.not_mem_nil⟩
    · obtain ⟨f, -, rfl⟩ := List.mem_map.mp hl
      exact ⟨["functions"], _, rfl, hone _ (by decide)⟩
  · obtain ⟨k, hk, rfl⟩ := List.mem_map.mp hl
    refine ⟨"classes" :: u.ancestors k, _, rfl, List.forall_mem_cons.mpr ⟨by decide, ?_⟩⟩
    intro q hq hdot
    obtain ⟨ds, hds, heq⟩ := h.ancestors_eq hk
    rw [heq, List.mem_reverse] at hq
    obtain ⟨d, hd, rfl⟩ := List.mem_map.mp hq
    exact absurd ((h.classes d (hds.mem d hd)).continuesWord.2 _ hdot) (by decide)

theorem Orderly.eq_of_prefix (h : u.Orderly) {l l' : List String} (hl : l ∈ u.locations)
    (hl' : l' ∈ u.locations) (hstart : l <+: l') : l = l' := by
  obtain ⟨more, rfl⟩ := hstart
  obtain ⟨dirs, name, rfl, -⟩ := h.mem_locations hl
  obtain ⟨dirs', name', heq, hdirs'⟩ := h.mem_locations hl'
  rcases List.eq_nil_or_concat more with rfl | ⟨more, q, rfl⟩
  · rw [List.append_nil]
  · rw [List.concat_eq_append, ← List.append_assoc] at heq
    have hmem : sourceName name ∈ dirs' := by
      rw [← List.append_inj_left' heq rfl]
      simp
    have hdot : '.' ∈ (sourceName name).toList := by
      rw [sourceName, String.toList_append]
      exact List.mem_append_right _ (by decide)
    exact absurd hdot (hdirs' _ hmem)

/-- No file is where another one needs a directory. -/
theorem Orderly.apart_places (h : u.Orderly) (indent dir : String) :
    ∀ p ∈ (u.files indent dir).map (Path.place ·.path),
      ∀ q ∈ (u.files indent dir).map (Path.place ·.path), p.parts <+: q.parts → p = q := by
  rw [h.places_files]
  intro p hp q hq hstart
  obtain ⟨l, hl, rfl⟩ := List.mem_map.mp hp
  obtain ⟨l', hl', rfl⟩ := List.mem_map.mp hq
  rw [h.eq_of_prefix hl hl' ((List.prefix_append_right_inj _).mp hstart)]

/-- The files of classes without a base are in one directory, and each other one is in a directory
that is named for the base and stands beside the file of the base. -/
structure Nested (u : SourceUnit) (dir : String) : Prop where
  root : ∀ k ∈ u.classes, k.base = none →
    Path.place (Path.parent (u.classPath dir k)) = Path.place (Path.join dir "classes")
  derived : ∀ k ∈ u.classes, ∀ t ∈ k.base, (∃ d ∈ u.classes, d.name.text = t.text) ∧
    ∀ d ∈ u.classes, d.name.text = t.text →
      Path.parent (u.classPath dir k) = Path.join (Path.parent (u.classPath dir d)) t.text

theorem Orderly.nested (h : u.Orderly) (dir : String) : u.Nested dir := by
  have hplain {k : ClassDecl} (hk : k ∈ u.classes) :
      ∀ q ∈ ((Path.place dir).below ("classes" :: u.ancestors k)).parts, Path.Plain q :=
    List.forall_mem_append.mpr ⟨fun _ => Path.plain_of_mem_parts,
      List.forall_mem_cons.mpr ⟨plain_classes, h.plain_ancestors hk⟩⟩
  constructor
  · intro k hk hbase
    rw [h.parent_classPath hk, Path.place_text _ (hplain hk), h.ancestors_root hk hbase,
      plain_classes.place_join]
  · intro k hk t ht
    obtain ⟨d, hd, hname, hancestors⟩ := h.ancestors_derived hk ht
    refine ⟨⟨d, hd, hname⟩, fun d' hd' hname' => ?_⟩
    obtain rfl : d' = d := List.inj_on_of_nodup_map h.classNames hd' hd (hname'.trans hname.symm)
    have ht : Path.Plain t.text := hname ▸ (h.classes d' hd).plain
    rw [h.parent_classPath hk, h.parent_classPath hd, ht.join_text (hplain hd), hancestors,
      Path.Place.below_below]
    rfl

end SourceUnit

namespace Library

def classHead (l : Library) (x : ClassEntry × ClassShape) : Token × Option Token :=
  (.identifier x.1.name,
    x.2.base.bind fun i => l.container.classes[i]?.map fun b => .identifier b.name)

/-- All classes are found, in order. -/
theorem heads_foldl_addClass (l : Library) (xs : List (ClassEntry × ClassShape))
    (p : Progress ClassDecl) :
    (xs.foldl l.addClass p).found.reverse.map (fun d => (d.name, d.base)) =
      p.found.reverse.map (fun d => (d.name, d.base)) ++ xs.map l.classHead := by
  induction xs generalizing p with
  | nil => exact (List.append_nil _).symm
  | cons x xs ih =>
    rw [List.foldl_cons, ih]
    obtain ⟨k, shape⟩ := x
    simp only [addClass, List.reverse_cons, List.map_append, List.map_cons, List.append_assoc]
    rfl

/-- Functions are found in order, under their own names. -/
theorem names_foldl_addFunction (l : Library) (es : List FunctionEntry) (p : Progress Subroutine) :
    ∃ names, names.Sublist (es.map (·.name)) ∧
      (es.foldl l.addFunction p).found.reverse.map (·.name.text) =
        p.found.reverse.map (·.name.text) ++ names := by
  induction es generalizing p with
  | nil => exact ⟨[], .slnil, (List.append_nil _).symm⟩
  | cons e es ih =>
    obtain ⟨names, hnames, hfound⟩ := ih (l.addFunction p e)
    rw [List.foldl_cons, hfound, addFunction]
    cases hread : l.functionSubroutine e with
    | error fault => exact ⟨names, hnames.cons _, rfl⟩
    | ok s =>
      obtain ⟨b, -, hs⟩ := bind_ok hread
      obtain ⟨ss, -, hs⟩ := bind_ok hs
      cases hs
      refine ⟨e.name :: names, hnames.cons_cons _, ?_⟩
      rw [Progress.add, List.reverse_cons, List.map_append, List.append_assoc]
      rfl

end Library

namespace Container

open Library

variable {c : Container} {i : Nat} {l : List Nat} {d : ClassDecl}

theorem length_shapes (c : Container) : c.shapes.length = c.classes.length := by
  simp [shapes]

theorem decompile_classHeads (c : Container) :
    c.decompile.unit.classes.map (fun d => (d.name, d.base)) =
      (c.classes.zip c.shapes).map (ofContainer c).classHead :=
  heads_foldl_addClass (ofContainer c) _ _

theorem decompile_classNames (c : Container) :
    c.decompile.unit.classes.map (·.name.text) = c.classes.map (·.name) := by
  have hheads := congrArg (List.map fun h => h.1.text) (decompile_classHeads c)
  rw [List.map_map, List.map_map] at hheads
  have hfst : (c.classes.zip c.shapes).map Prod.fst = c.classes :=
    List.map_fst_zip (Nat.le_of_eq c.length_shapes.symm)
  have hnames := congrArg (List.map (·.name)) hfst
  rw [List.map_map] at hnames
  exact hheads.trans hnames

/-- A class of a decompiled container extends the class that its base was inferred to be. -/
theorem decompile_base {d : ClassDecl} (hd : c.decompile.unit.classes[i]? = some d) :
    d.base = (c.baseOf? i).bind fun j => c.classes[j]?.map fun b => .identifier b.name := by
  have hhead := congrArg (·[i]?) (decompile_classHeads c)
  simp only [List.getElem?_map, hd, Option.map_some] at hhead
  obtain ⟨⟨k, shape⟩, hx, heq⟩ := Option.map_eq_some_iff.mp hhead.symm
  have hshape := (List.getElem?_zip_eq_some.mp hx).2
  rw [baseOf?, hshape]
  exact (congrArg Prod.snd heq).symm

theorem Lineage.head_mem (h : c.Lineage i l) : i ∈ l := by
  cases h <;> exact List.mem_cons_self

/-- The classes that stand behind a base are those of the lineage. -/
theorem Lineage.bases (h : c.Lineage i l) (hclasses : ∀ j ∈ l, j < c.classes.length)
    (hnodup : (c.classes.map (·.name)).Nodup) (hd : c.decompile.unit.classes[i]? = some d) :
    ∃ ds, c.decompile.unit.Bases d.base ds ∧ ds.length + 1 = l.length := by
  have hnames := decompile_classNames c
  induction h generalizing d with
  | root hnone =>
    refine ⟨[], ?_, rfl⟩
    rw [decompile_base hd, hnone]
    exact .root
  | @extend i j l hsome hl ih =>
    obtain ⟨-, hbelow⟩ := List.forall_mem_cons.mp hclasses
    have hj := hbelow j hl.head_mem
    have hlength : j < c.decompile.unit.classes.length := by
      have := congrArg List.length hnames
      rw [List.length_map, List.length_map] at this
      rwa [this]
    have hd' := List.getElem?_eq_getElem hlength
    generalize c.decompile.unit.classes[j] = d' at hd'
    have hname : d'.name.text = c.classes[j].name := by
      have hj? := congrArg (·[j]?) hnames
      simp only [List.getElem?_map, hd', List.getElem?_eq_getElem hj, Option.map_some] at hj?
      exact Option.some.inj hj?
    obtain ⟨ds, hds, hcount⟩ := ih hbelow hd'
    refine ⟨d' :: ds, ?_, congrArg (· + 1) hcount⟩
    rw [decompile_base hd, hsome, Option.bind_some, List.getElem?_eq_getElem hj, Option.map_some,
      ← hname]
    exact .extend (find?_of_nodup (hnames ▸ hnodup) (List.mem_of_getElem? hd')) hds

/-- What is read from a container with different names is an orderly unit. -/
theorem decompile_orderly (hc : c.Writable) (hfunctions : (c.functions.map (·.name)).Nodup)
    (hclasses : (c.classes.map (·.name)).Nodup) : c.decompile.unit.Orderly := by
  have hformed := decompile_formed hc
  have hnames := decompile_classNames c
  have hlength := congrArg List.length hnames
  rw [List.length_map, List.length_map] at hlength
  refine ⟨fun f hf => (hformed.functions f hf).name.2, ?_,
    fun d hd => (hformed.classes d hd).name.2, hnames ▸ hclasses, fun d hd => ?_⟩
  · obtain ⟨names, hsub, hfound⟩ := names_foldl_addFunction (ofContainer c) c.functions {}
    exact (show c.decompile.unit.functions.map (·.name.text) = names from hfound) ▸
      hfunctions.sublist hsub
  · obtain ⟨i, hi⟩ := List.mem_iff_getElem?.mp hd
    have hlt : i < c.classes.length := hlength ▸ (List.getElem?_eq_some_iff.mp hi).1
    obtain ⟨l, hl, hinherits, -⟩ := exists_lineage (List.getElem?_eq_getElem hlt)
    obtain ⟨ds, hds, hcount⟩ := hl.bases hinherits.classes hclasses hi
    refine ⟨ds, hds, ?_⟩
    have hrange : l ⊆ List.range c.classes.length := fun j hj =>
      List.mem_range.mpr (hinherits.classes j hj)
    have hbound := (hinherits.nodup.subperm hrange).length_le
    rw [List.length_range] at hbound
    omega

end Container

end Lss
