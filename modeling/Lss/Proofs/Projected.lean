import Lss.Files.Programs
import Lss.Proofs.Paths
import Lss.Proofs.RoundTrip
import Lss.Proofs.Unplaced

/-!
# Units as directories

A unit that is written as a directory and compiled from there declares what its text declares. Each
of the files is read back as it was written, since no two are at one place, and parses to the
declarations that it was printed from, up to the minus before a number and to places in the text.
-/
namespace Lss

namespace SourceUnit

variable {u v : SourceUnit} {us vs : List SourceUnit}

/-- A unit as units of one kind of declaration: the globals, then each function, then each class. -/
def pieces (u : SourceUnit) : List SourceUnit :=
  (if u.globals.isEmpty then [] else [{ globals := u.globals }]) ++
    u.functions.map (fun f => { functions := [f] }) ++ u.classes.map fun d => { classes := [d] }

theorem texts_files (u : SourceUnit) (indent dir : String) :
    (u.files indent dir).map (·.text) = u.pieces.map (·.text indent) := by
  simp only [files, pieces, List.map_append, List.map_map, Function.comp_def]
  split <;> rfl

theorem Formed.pieces {A B : Prop} (h : u.Formed A B) : ∀ v ∈ u.pieces, v.Formed A B := by
  have hnone {α : Type} {P : α → Prop} : ∀ a ∈ ([] : List α), P a := fun _ ha =>
    absurd ha List.not_mem_nil
  intro v hv
  rcases List.mem_append.mp hv with hv | hv
  · rcases List.mem_append.mp hv with hv | hv
    · split at hv
      · cases hv
      · rw [List.mem_singleton.mp hv]
        exact ⟨h.globals, hnone, hnone⟩
    · obtain ⟨f, hf, rfl⟩ := List.mem_map.mp hv
      exact ⟨hnone, List.forall_mem_singleton.mpr (h.functions f hf), hnone⟩
  · obtain ⟨d, hd, rfl⟩ := List.mem_map.mp hv
    exact ⟨hnone, hnone, List.forall_mem_singleton.mpr (h.classes d hd)⟩

structure Rereads (v u : SourceUnit) : Prop where
  globals : v.globals.map Token.bare = u.folded.globals.map Token.bare
  functions : v.functions.map SubroutineOf.bare = u.folded.functions.map SubroutineOf.bare
  classes : v.classes.map ClassDeclOf.bare = u.folded.classes.map ClassDeclOf.bare

theorem Formed.rereads {A B : Prop} (h : u.Formed A B) (n : Nat) (file : Option String) :
    (ofSource (u.text (spaces n)) file).1.Rereads u := by
  obtain ⟨-, hbare, -⟩ := h.reread n file
  exact ⟨congrArg (·.globals) hbare, congrArg (·.functions) hbare, congrArg (·.classes) hbare⟩

/-- What the pieces of a unit declare is what the unit does. -/
theorem flatMap_pieces (u : SourceUnit) :
    u.pieces.flatMap (·.folded.globals) = u.folded.globals ∧
      u.pieces.flatMap (·.folded.functions) = u.folded.functions ∧
      u.pieces.flatMap (·.folded.classes) = u.folded.classes := by
  unfold pieces
  split
  · next hempty =>
    rw [List.isEmpty_iff] at hempty
    simp [folded, rebuild, hempty, List.flatMap_map, ← List.map_eq_flatMap]
  · simp [folded, rebuild, List.flatMap_map, ← List.map_eq_flatMap]

theorem flatMap_rereads (h : List.Forall₂ Rereads vs us) :
    (vs.flatMap (·.globals)).map Token.bare =
        (us.flatMap (·.folded.globals)).map Token.bare ∧
      (vs.flatMap (·.functions)).map SubroutineOf.bare =
        (us.flatMap (·.folded.functions)).map SubroutineOf.bare ∧
      (vs.flatMap (·.classes)).map ClassDeclOf.bare =
        (us.flatMap (·.folded.classes)).map ClassDeclOf.bare := by
  induction h with
  | nil => exact ⟨rfl, rfl, rfl⟩
  | cons hone _ ih =>
    obtain ⟨hglobals, hfunctions, hclasses⟩ := ih
    simp only [List.flatMap_cons, List.map_append, hone.globals, hone.functions, hone.classes,
      hglobals, hfunctions, hclasses, and_self]

def ofFile (f : SourceFile) : SourceUnit := (ofSource f.text (some f.path)).1

/-- The files of a unit declare what its text declares. -/
theorem Formed.declares {A B : Prop} (h : u.Formed A B) (n : Nat) (dir : String)
    (file : Option String) : Container.Declares ((u.files (spaces n) dir).map ofFile)
      [(ofSource (u.text (spaces n)) file).1] := by
  have hpieces : List.Forall₂ Rereads ((u.files (spaces n) dir).map ofFile) u.pieces := by
    have htexts := (texts_files u (spaces n) dir).symm
    rw [← List.forall₂_eq_eq_eq, List.forall₂_map_left_iff, List.forall₂_map_right_iff] at htexts
    rw [List.forall₂_map_left_iff]
    refine ((List.forall₂_and_left _ _).mpr ⟨h.pieces, htexts⟩).flip.imp ?_
    rintro f v ⟨hv, htext⟩
    rw [ofFile, ← htext]
    exact hv.rereads n _
  obtain ⟨hglobals, hfunctions, hclasses⟩ := flatMap_rereads hpieces
  obtain ⟨hglobals', hfunctions', hclasses'⟩ := flatMap_pieces u
  have hwhole := h.rereads n file
  refine ⟨?_, ?_, ?_⟩
  · rw [hglobals, hglobals', List.flatMap_singleton, hwhole.globals]
  · rw [Container.newFunctions, Container.newFunctions, hfunctions, hfunctions',
      List.flatMap_singleton, hwhole.functions]
  · rw [Container.newClasses, Container.newClasses, hclasses, hclasses', List.flatMap_singleton,
      hwhole.classes]

end SourceUnit
abbrev Shelf := Path.Place → Option ByteArray

namespace Shelf

variable {shelf : Shelf} {fs : List SourceFile} {f : SourceFile}

def store : FileStore (StateM Shelf) where
  read p := return match (← get) (Path.place p) with
    | some bytes => .ok bytes
    | none => .error .noEntry
  write p bytes := do
    modify fun shelf => Function.update shelf (Path.place p) (some bytes)
    return .ok ()
  createDirs _ := return .ok ()
  isThere p := return ((← get) (Path.place p)).isSome
  surroundings := return []

def Bears (shelf : Shelf) (f : SourceFile) : Prop :=
  shelf (Path.place f.path) = some f.text.toUTF8

def put (shelf : Shelf) (f : SourceFile) : Shelf :=
  Function.update shelf (Path.place f.path) (some f.text.toUTF8)

theorem bears_put (shelf : Shelf) (f : SourceFile) : (shelf.put f).Bears f :=
  Function.update_self ..

theorem Bears.put {g : SourceFile} (h : shelf.Bears f)
    (hne : Path.place f.path ≠ Path.place g.path) : (shelf.put g).Bears f :=
  (Function.update_of_ne hne _ _).trans h

/-- Files at different places are all there when they have been written. -/
theorem bears_foldl_put (hplaces : (fs.map (Path.place ·.path)).Nodup) (shelf : Shelf) :
    ∀ f ∈ fs, (fs.foldl put shelf).Bears f := by
  have hkept {gs : List SourceFile} {f : SourceFile}
      (hne : Path.place f.path ∉ gs.map (Path.place ·.path)) {shelf : Shelf} (h : shelf.Bears f) :
      (gs.foldl put shelf).Bears f := by
    induction gs generalizing shelf with
    | nil => exact h
    | cons g gs ih =>
      rw [List.map_cons, List.mem_cons, not_or] at hne
      exact ih hne.2 (h.put hne.1)
  induction fs generalizing shelf with
  | nil => exact fun f hf => absurd hf List.not_mem_nil
  | cons g fs ih =>
    rw [List.map_cons, List.nodup_cons] at hplaces
    exact List.forall_mem_cons.mpr ⟨hkept hplaces.1 (bears_put shelf g), ih hplaces.2 _⟩

theorem run_writeSources (fs : List SourceFile) (shelf : Shelf) :
    (store.writeSources fs).run shelf = (.ok (), fs.foldl put shelf) := by
  induction fs generalizing shelf with
  | nil => rfl
  | cons f fs ih => exact ih (shelf.put f)

theorem run_project (u : SourceUnit) (indent dir : String) (shelf : Shelf) :
    (store.project u indent dir).run shelf =
      (.ok ((u.files indent dir).map (·.path)), (u.files indent dir).foldl put shelf) := by
  have hrun := run_writeSources (u.files indent dir) shelf
  unfold FileStore.project
  rw [StateT.run_bind, hrun]
  rfl

theorem run_readText (h : shelf.Bears f) :
    (store.readText f.path).run shelf = (.ok f.text, shelf) := by
  have hplace : shelf (Path.place f.path) = some f.text.toUTF8 := h
  have hread : (store.read f.path).run shelf = pure (.ok f.text.toUTF8, shelf) := by
    simp only [store, bind_pure_comp, StateT.run_map, StateT.run_get, map_pure, hplace]
  have htext : String.fromUTF8? f.text.toUTF8 = some f.text := dif_pos f.text.isValidUTF8
  rw [FileStore.readText, StateT.run_bind, hread, pure_bind]
  simp only [htext]
  rfl

/-- Files that are there are all read. -/
theorem run_addSource (h : ∀ f ∈ fs, shelf.Bears f) (s : FileStore.Sources) :
    ∃ found, ((fs.map (·.path)).foldlM store.addSource s).run shelf =
      ({ s with units := (fs.map SourceUnit.ofFile).reverse ++ s.units, found }, shelf) := by
  induction fs generalizing s with
  | nil => exact ⟨s.found, rfl⟩
  | cons f fs ih =>
    obtain ⟨hf, hfs⟩ := List.forall_mem_cons.mp h
    have hone : (store.addSource s f.path).run shelf = ({ s with
        units := SourceUnit.ofFile f :: s.units
        found := s.found ++ (SourceUnit.ofSource f.text (some f.path)).2 }, shelf) := by
      rw [FileStore.addSource, StateT.run_bind, run_readText hf]
      rfl
    obtain ⟨found, hrest⟩ := ih hfs { s with
      units := SourceUnit.ofFile f :: s.units
      found := s.found ++ (SourceUnit.ofSource f.text (some f.path)).2 }
    refine ⟨found, ?_⟩
    rw [List.map_cons, List.foldlM_cons, StateT.run_bind, hone]
    show ((fs.map (·.path)).foldlM store.addSource _).run shelf = _
    rw [hrest, List.map_cons, List.reverse_cons, List.append_assoc]
    rfl

/-- Files that are there are compiled as one program. -/
theorem container_compileFiles (h : ∀ f ∈ fs, shelf.Bears f) (settings : Settings) :
    ((store.compileFiles settings (fs.map (·.path))).run shelf).1.container =
      ((Container.ofSettings settings).compile settings (fs.map SourceUnit.ofFile)).container := by
  obtain ⟨found, hrun⟩ := run_addSource h {}
  unfold FileStore.compileFiles
  generalize (Container.ofSettings settings).compile settings = compile
  rw [StateT.run_bind, hrun]
  show (compile ((fs.map SourceUnit.ofFile).reverse ++ []).reverse).container = _
  rw [List.append_nil, List.reverse_reverse]

end Shelf

/-- Written as a directory, each declaration of a unit has a file of its own at a place of its own,
where no other file needs a directory, and those of classes are below one another as the classes
are. Unless lines are marked, the files are compiled to just what the text of the unit is compiled
to. -/
structure SourceUnit.Projects (u : SourceUnit) (n : Nat) (dir : String) (shelf : Shelf) : Prop where
  written : ∃ paths shelf',
    (Shelf.store.project u (spaces n) dir).run shelf = (.ok paths, shelf') ∧
    paths = (u.files (spaces n) dir).map (·.path) ∧
    (paths.map Path.place).Nodup ∧
    (∀ p ∈ paths.map Path.place, ∀ q ∈ paths.map Path.place, p.parts <+: q.parts → p = q) ∧
    ∀ settings : Settings, settings.lineNumbers = false → ∀ file : Option String,
      ((Shelf.store.compileFiles settings paths).run shelf').1.container =
        (Container.compileSource settings (u.text (spaces n)) file).container
  nested : u.Nested dir

namespace Container

/-- What sessions make of parsed texts can be kept as a directory. -/
theorem Grown.projects {c : Container} {sources : List SourceUnit} (h : Grown sources c)
    (hparsed : ∀ u ∈ sources, ∃ source file, u = (SourceUnit.ofSource source file).1) (n : Nat)
    (dir : String) (shelf : Shelf) : c.decompile.unit.Projects n dir shelf := by
  have hproper : ∀ u ∈ sources, u.Proper := by
    intro u hu
    obtain ⟨source, file, rfl⟩ := hparsed u hu
    exact SourceUnit.ofSource_proper source file
  have hwritable := h.writable hproper
  have horderly := decompile_orderly hwritable h.holds.names h.legible.nodup
  have hplaces := horderly.nodup_places (spaces n) dir
  refine ⟨⟨_, _, Shelf.run_project _ _ _ shelf, rfl, ?_, ?_, fun settings hlines file => ?_⟩,
    horderly.nested dir⟩
  · rw [List.map_map]
    exact hplaces
  · rw [List.map_map]
    exact horderly.apart_places (spaces n) dir
  · rw [Shelf.container_compileFiles (Shelf.bears_foldl_put hplaces shelf),
      container_compileSource]
    exact ((decompile_formed hwritable).declares n dir file).compile hlines _

def planted : String :=
  "global g; function turn() \x7b return -g; \x7d class Base \x7b property hp; \x7d " ++
    "class Hero : Base \x7b property xp; function rest() \x7b this.hp = g; \x7d \x7d"

theorem Grown.projects_planted :
    ∃ c, ((ofSettings {}).compile {} [(SourceUnit.ofSource planted none).1]).container = some c ∧
      (c.decompile.unit.files (spaces 2) "out/").map (·.path) = ["out/globals.lss",
        "out/functions/turn.lss", "out/classes/Base.lss", "out/classes/Base/Hero.lss"] ∧
      c.decompile.unit.Projects 2 "out/" fun _ => none := by
  have hrun : ((ofSettings {}).compile {} [(SourceUnit.ofSource planted none).1]).container.any
      fun c => (c.decompile.unit.files (spaces 2) "out/").map (·.path) = ["out/globals.lss",
        "out/functions/turn.lss", "out/classes/Base.lss", "out/classes/Base/Hero.lss"] := by
    decide +kernel
  obtain ⟨c, hc, hpaths⟩ := (Option.any_eq_true _ _).mp hrun
  refine ⟨c, hc, of_decide_eq_true hpaths, ?_⟩
  have hgrown : Grown [(SourceUnit.ofSource planted none).1] c := .session {} _ (.start {}) hc
  exact hgrown.projects (List.forall_mem_singleton.mpr ⟨planted, none, rfl⟩) 2 "out/" fun _ => none

end Container

end Lss
