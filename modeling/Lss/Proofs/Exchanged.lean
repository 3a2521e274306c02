import Lss.Proofs.Relinked
import Lss.Proofs.Reports

/-!
# Units with one body exchanged

What units declare does not depend on what stands in a body. So if one body is exchanged for
another, every other one is compiled with the same declarations as before and in its old place, and
all errors but those of that body stay as they were.
-/
namespace Lss

open Lower

def SubroutineOf.withBody (s : Subroutine) (b : Block) : Subroutine := { s with body := b }

inductive Vacancy where
  | function (before : List SourceUnit) (unit : SourceUnit) (after : List SourceUnit)
      (fs gs : List Subroutine)
  | method (before : List SourceUnit) (unit : SourceUnit) (after : List SourceUnit)
      (ds : List ClassDecl) (decl : ClassDecl) (es : List ClassDecl) (ms ns : List Subroutine)

def Vacancy.fill (s : Subroutine) : Vacancy → List SourceUnit
  | .function before unit after fs gs =>
    before ++ { unit with functions := fs ++ s :: gs } :: after
  | .method before unit after ds decl es ms ns =>
    before ++ { unit with classes := ds ++ { decl with methods := ms ++ s :: ns } :: es } :: after

/-! Lists that depend on something at one place. -/

section

variable {α β γ : Type} {g : β → α} {l : β → List α}

def Spot (g : β → α) (l : β → List α) : Prop :=
  (∃ xs, ∀ b, l b = xs) ∨ ∃ xs ys, ∀ b, l b = xs ++ g b :: ys

theorem Spot.map (h : Spot g l) (f : α → γ) : Spot (fun b => f (g b)) fun b => (l b).map f := by
  rcases h with ⟨xs, h⟩ | ⟨xs, ys, h⟩
  · exact .inl ⟨xs.map f, fun b => by simp only [h]⟩
  · exact .inr ⟨xs.map f, ys.map f, fun b => by simp only [h, List.map_append, List.map_cons]⟩

theorem Spot.append_left (h : Spot g l) (zs : List α) : Spot g fun b => zs ++ l b := by
  rcases h with ⟨xs, h⟩ | ⟨xs, ys, h⟩
  · exact .inl ⟨zs ++ xs, fun b => by simp only [h]⟩
  · exact .inr ⟨zs ++ xs, ys, fun b => by simp only [h, List.append_assoc]⟩

theorem Spot.append_right (h : Spot g l) (zs : List α) : Spot g fun b => l b ++ zs := by
  rcases h with ⟨xs, h⟩ | ⟨xs, ys, h⟩
  · exact .inl ⟨xs ++ zs, fun b => by simp only [h]⟩
  · exact .inr ⟨xs, ys ++ zs, fun b => by simp only [h, List.append_assoc, List.cons_append]⟩

theorem Spot.flatMap {f : α → List γ} {k : β → γ} (h : Spot g l)
    (hf : Spot k fun b => f (g b)) : Spot k fun b => (l b).flatMap f := by
  rcases h with ⟨xs, h⟩ | ⟨xs, ys, h⟩
  · exact .inl ⟨xs.flatMap f, fun b => by simp only [h]⟩
  · simp only [h, List.flatMap_append, List.flatMap_cons]
    exact (hf.append_right (ys.flatMap f)).append_left (xs.flatMap f)

theorem Spot.foldl_eq {σ : Type} {step : σ → α → σ} (h : Spot g l)
    (hg : ∀ x b c, step x (g b) = step x (g c)) (x : σ) (b c : β) :
    (l b).foldl step x = (l c).foldl step x := by
  rcases h with ⟨xs, h⟩ | ⟨xs, ys, h⟩
  · rw [h, h]
  · rw [h, h, List.foldl_append, List.foldl_append, List.foldl_cons, List.foldl_cons, hg _ b c]

theorem Spot.map_eq {f : α → γ} (h : Spot g l) (hg : ∀ b c, f (g b) = f (g c)) (b c : β) :
    (l b).map f = (l c).map f := by
  rcases h with ⟨xs, h⟩ | ⟨xs, ys, h⟩
  · rw [h, h]
  · rw [h, h, List.map_append, List.map_append, List.map_cons, List.map_cons, hg b c]

/-- A choice of places that takes none twice. -/
theorem Spot.select (h : Spot g l) {order : List Nat} (hn : order.Nodup) :
    Spot g fun b => order.filterMap ((l b).toArray[·]?) := by
  simp only [List.getElem?_toArray]
  rcases h with ⟨xs, h⟩ | ⟨xs, ys, h⟩
  · exact .inl ⟨order.filterMap (xs[·]?), fun b => by simp only [h]⟩
  simp only [h]
  have hother {is : List Nat} (his : xs.length ∉ is) (b : β) :
      is.filterMap (fun i => (xs ++ g b :: ys)[i]?) = is.filterMap fun i =>
        if i < xs.length then xs[i]? else ys[i - (xs.length + 1)]? := by
    refine List.filterMap_congr fun i hi => ?_
    have hne : i ≠ xs.length := fun heq => his (heq ▸ hi)
    rcases Nat.lt_or_gt_of_ne hne with hlt | hgt
    · rw [List.getElem?_append_left hlt, if_pos hlt]
    · obtain ⟨n, hn⟩ : ∃ n, i - xs.length = n + 1 := ⟨i - xs.length - 1, by omega⟩
      rw [List.getElem?_append_right (Nat.le_of_lt hgt), if_neg (Nat.lt_asymm hgt), hn,
        List.getElem?_cons_succ, ← Nat.sub_sub, hn, Nat.add_sub_cancel]
  by_cases hmem : xs.length ∈ order
  · obtain ⟨is, js, rfl⟩ := List.append_of_mem hmem
    rw [List.nodup_append, List.nodup_cons] at hn
    have his : xs.length ∉ is := fun hi => hn.2.2 _ hi _ List.mem_cons_self rfl
    have hself (b : β) : (xs ++ g b :: ys)[xs.length]? = some (g b) := by simp
    simp only [List.filterMap_append, List.filterMap_cons, hother his, hother hn.2.1.1, hself]
    exact .inr ⟨_, _, fun _ => rfl⟩
  · exact .inl ⟨_, hother hmem⟩

end

/-! What units declare. -/

namespace Session

/-- Registration goes by names and parameters. -/
theorem foldl_add_bodies (fs : List Subroutine) (known : Signatures)
    (errors : List CompileError) :
    ∃ known' new errors', ∀ bodies,
      fs.foldl Registered.add ⟨known, bodies, errors⟩ = ⟨known', new ++ bodies, errors'⟩ := by
  induction fs generalizing known errors with
  | nil => exact ⟨known, [], errors, fun _ => rfl⟩
  | cons f fs ih =>
    simp only [List.foldl_cons, Registered.add]
    split
    · exact ih _ _
    · obtain ⟨known', new, errors', h⟩ := ih (known.insert f.name.text (parameterCount f)) errors
      refine ⟨known', new ++ [(f, parameterCount f)], errors', fun bodies => ?_⟩
      rw [List.append_assoc]
      exact h _

/-- Exchanging a body changes nothing but that body in what is registered. -/
theorem foldl_add_spot (r : Registered) (s : Subroutine) (fs gs : List Subroutine) :
    ∃ known errors, (∀ b, ((fs ++ s.withBody b :: gs).foldl Registered.add r).known = known ∧
        ((fs ++ s.withBody b :: gs).foldl Registered.add r).errors = errors) ∧
      Spot (fun b => (s.withBody b, parameterCount s))
        fun b => ((fs ++ s.withBody b :: gs).foldl Registered.add r).bodies.reverse := by
  simp only [List.foldl_append, List.foldl_cons]
  obtain ⟨known, bodies, errors⟩ := fs.foldl Registered.add r
  by_cases hknown : known.contains s.name.text
  · have hadd (b : Block) : Registered.add ⟨known, bodies, errors⟩ (s.withBody b) =
        ⟨known, bodies, .duplicateFunction s.name.text s.name.span :: errors⟩ := if_pos hknown
    simp only [hadd]
    exact ⟨_, _, fun _ => ⟨rfl, rfl⟩, .inl ⟨_, fun _ => rfl⟩⟩
  · have hadd (b : Block) : Registered.add ⟨known, bodies, errors⟩ (s.withBody b) =
        ⟨known.insert s.name.text (parameterCount s),
          (s.withBody b, parameterCount s) :: bodies, errors⟩ := if_neg hknown
    obtain ⟨known', new, errors', h⟩ :=
      foldl_add_bodies gs (known.insert s.name.text (parameterCount s)) errors
    simp only [hadd, h]
    refine ⟨_, _, fun _ => ⟨rfl, rfl⟩, .inr ⟨bodies.reverse, new.reverse, fun b => ?_⟩⟩
    simp

/-- Of the classes before it, a class is compared with the names only. -/
theorem foldl_addClass_names (taken : Container) (ds : List ClassDecl) (names : List String)
    (errors : List CompileError) :
    ∃ new errors', ∀ acc : List ClassDecl, acc.map (·.name.text) = names →
      ds.foldl (addClass taken) (acc, errors) = (new ++ acc, errors') := by
  induction ds generalizing names errors with
  | nil => exact ⟨[], errors, fun _ _ => rfl⟩
  | cons d ds ih =>
    have hany (acc : List ClassDecl) (hacc : acc.map (·.name.text) = names) :
        acc.any (·.name.text == d.name.text) = names.any (· == d.name.text) := by
      rw [← hacc, List.any_map]
      rfl
    by_cases h : (taken.findClass? d.name.text).isSome || names.any (· == d.name.text)
    · obtain ⟨new, errors', hrest⟩ :=
        ih names (.duplicateClass d.name.text d.name.span :: errors)
      refine ⟨new, errors', fun acc hacc => ?_⟩
      rw [List.foldl_cons, addClass, hany acc hacc, if_pos h]
      exact hrest acc hacc
    · obtain ⟨new, errors', hrest⟩ := ih (d.name.text :: names) errors
      refine ⟨new ++ [d], errors', fun acc hacc => ?_⟩
      rw [List.foldl_cons, addClass, hany acc hacc, if_neg h, List.append_assoc]
      exact hrest (d :: acc) (congrArg (d.name.text :: ·) hacc)

/-- A class that differs in its bodies is registered all the same. -/
theorem foldl_addClass_spot {β : Type} {k : β → ClassDecl} {name : Token}
    (hk : ∀ b, (k b).name = name) (taken : Container) (ds es : List ClassDecl)
    (errors : List CompileError) :
    (∃ errors', ∀ b,
        ((ds ++ k b :: es).foldl (addClass taken) ([], errors)).2 = errors') ∧
      Spot k fun b => ((ds ++ k b :: es).foldl (addClass taken) ([], errors)).1.reverse := by
  simp only [List.foldl_append, List.foldl_cons]
  obtain ⟨acc, found⟩ := ds.foldl (addClass taken) ([], errors)
  by_cases h : (taken.findClass? name.text).isSome || acc.any (·.name.text == name.text)
  · have hadd (b : β) : addClass taken (acc, found) (k b) =
        (acc, .duplicateClass name.text name.span :: found) := by
      rw [addClass, hk, if_pos h]
    simp only [hadd]
    exact ⟨⟨_, fun _ => rfl⟩, .inl ⟨_, fun _ => rfl⟩⟩
  · have hadd (b : β) : addClass taken (acc, found) (k b) = (k b :: acc, found) := by
      rw [addClass, hk, if_neg h]
    obtain ⟨new, errors', hrest⟩ :=
      foldl_addClass_names taken es (name.text :: acc.map (·.name.text)) found
    have hrest (b : β) : es.foldl (addClass taken) (k b :: acc, found) =
        (new ++ k b :: acc, errors') := hrest (k b :: acc) (by rw [List.map_cons, hk])
    simp only [hadd, hrest]
    refine ⟨⟨_, fun _ => rfl⟩, .inr ⟨acc.reverse, new.reverse, fun b => ?_⟩⟩
    simp

end Session

/-! The order of classes. -/

namespace ClassOrder

def strip (d : ClassDecl) : ClassDecl := ⟨d.name, d.base, [], []⟩

theorem walk_strip (classes : List ClassDecl) (byName : Std.TreeMap String Nat) (c : Container)
    (done : Progress) (path waiting : List Nat) (i : Nat) :
    walk (classes.map strip).toArray byName c done path waiting i =
      walk classes.toArray byName c done path waiting i := by
  have hbase (i : Nat) : (classes.map strip).toArray[i]?.bind (·.base) =
      classes.toArray[i]?.bind (·.base) := by
    rw [List.getElem?_toArray, List.getElem?_map, List.getElem?_toArray, Option.bind_map]
    rfl
  have hname (i : Nat) : (classes.map strip).toArray[i]?.map
      (fun d => CompileError.inheritanceCycle d.name.text d.name.span) =
      classes.toArray[i]?.map fun d => .inheritanceCycle d.name.text d.name.span := by
    rw [List.getElem?_toArray, List.getElem?_map, List.getElem?_toArray, Option.map_map]
    rfl
  fun_induction walk classes.toArray byName c done path waiting i with
  | case1 path waiting i hmem _ hnone =>
    rw [walk, dif_pos hmem, hbase, hnone]
  | case2 path waiting i hmem _ base hsome j hj ih =>
    rw [walk, dif_pos hmem, hbase, hsome]
    dsimp only
    rw [hj]
    exact ih
  | case3 path waiting i hmem _ base hsome hj hold =>
    rw [walk, dif_pos hmem, hbase, hsome]
    dsimp only
    rw [hj]
    exact if_pos hold
  | case4 path waiting i hmem _ base hsome hj hold =>
    rw [walk, dif_pos hmem, hbase, hsome]
    dsimp only
    rw [hj]
    exact if_neg hold
  | case5 path waiting i hmem hdone =>
    rw [walk, dif_neg hmem, if_pos hdone]
  | case6 path waiting i hmem hdone hbroken =>
    rw [walk, dif_neg hmem, if_neg hdone, if_pos hbroken]
  | case7 path waiting i hmem hdone hbroken =>
    rw [walk, dif_neg hmem, if_neg hdone, if_neg hbroken, hname]

end ClassOrder

open ClassOrder

/-- The order of classes has nothing to do with their members. -/
theorem orderClasses_strip (classes : List ClassDecl) (c : Container) :
    orderClasses (classes.map strip) c = orderClasses classes c := by
  have hplaces : places (classes.map strip) = places classes := by
    rw [places, places, List.length_map, List.zip_map_left, List.foldl_map]
    rfl
  have hvisit : visit (classes.map strip).toArray (places classes) c =
      visit classes.toArray (places classes) c := by
    funext done i
    rw [visit, visit, walk_strip]
  rw [orderClasses_eq, orderClasses_eq, hplaces, hvisit, List.length_map]

/-! Outlines. -/

namespace Container

/-- What varies in an outline when one body is exchanged: that body, and nothing else. -/
structure Outline.Varies (o : Block → Outline) (s : Subroutine) : Prop where
  start : ∃ start, ∀ b, (o b).start = start
  visits : ∃ env repeated, Spot (fun b => ⟨env, s.withBody b, repeated⟩) fun b => (o b).visits

/-- The methods of a class with one body exchanged. -/
theorem visitMethods_spot (env : Env) (s : Subroutine) (ms ns : List Subroutine)
    (seen : List String) :
    ∃ repeated, Spot (fun b => (⟨env, s.withBody b, repeated⟩ : Visit))
      fun b => visitMethods env seen (ms ++ s.withBody b :: ns) := by
  induction ms generalizing seen with
  | nil =>
    by_cases hseen : seen.contains s.name.text
    · refine ⟨true, .inr ⟨[], visitMethods env seen ns, fun b => ?_⟩⟩
      exact if_pos hseen
    · refine ⟨false, .inr ⟨[], visitMethods env (s.name.text :: seen) ns, fun b => ?_⟩⟩
      exact if_neg hseen
  | cons m ms ih =>
    by_cases hseen : seen.contains m.name.text
    · obtain ⟨repeated, h⟩ := ih seen
      refine ⟨repeated, ?_⟩
      simp only [List.cons_append, visitMethods, if_pos hseen]
      exact h.append_left [⟨env, m, true⟩]
    · obtain ⟨repeated, h⟩ := ih (m.name.text :: seen)
      refine ⟨repeated, ?_⟩
      simp only [List.cons_append, visitMethods, if_neg hseen]
      exact h.append_left [⟨env, m, false⟩]

theorem outline_function (c : Container) (settings : Settings) (s : Subroutine)
    (before after : List SourceUnit) (unit : SourceUnit) (fs gs : List Subroutine) :
    Outline.Varies (fun b => c.outline settings
      (Vacancy.fill (s.withBody b) (.function before unit after fs gs))) s := by
  have hfunctions (b : Block) :
      (Vacancy.fill (s.withBody b) (.function before unit after fs gs)).flatMap (·.functions) =
        (before.flatMap (·.functions) ++ fs) ++ s.withBody b ::
          (gs ++ after.flatMap (·.functions)) := by
    simp [Vacancy.fill]
  have hglobals (b : Block) :
      (Vacancy.fill (s.withBody b) (.function before unit after fs gs)).flatMap (·.globals) =
        before.flatMap (·.globals) ++ (unit.globals ++ after.flatMap (·.globals)) := by
    simp [Vacancy.fill]
  have hclasses (b : Block) :
      (Vacancy.fill (s.withBody b) (.function before unit after fs gs)).flatMap (·.classes) =
        before.flatMap (·.classes) ++ (unit.classes ++ after.flatMap (·.classes)) := by
    simp [Vacancy.fill]
  obtain ⟨known, errors, hconst, hbodies⟩ := Session.foldl_add_spot
    { known := Session.signatures c } s (before.flatMap (·.functions) ++ fs)
    (gs ++ after.flatMap (·.functions))
  have hknown (b : Block) := (hconst b).1
  have herrors (b : Block) := (hconst b).2
  constructor
  · simp only [outline, hfunctions, hglobals, hclasses, herrors]
    exact ⟨_, fun _ => rfl⟩
  · simp only [Outline.visits, outline, hfunctions, hglobals, hclasses, hknown, herrors]
    exact ⟨_, false, (hbodies.map _).append_right _⟩

/-- What a class offers does not depend on what its methods do. -/
theorem layouts_spot {k : Block → ClassDecl} {l : Block → List ClassDecl} (h : Spot k l)
    (hk : ∀ b b', (k b).base = (k b').base)
    (hderive : ∀ base b b', ClassLayout.derive (k b) base = ClassLayout.derive (k b') base)
    (c : Container) (b b' : Block) : Session.layouts c (l b) = Session.layouts c (l b') := by
  rw [Session.layouts, Session.layouts, ClassLayout.all, ClassLayout.all]
  rw [h.foldl_eq (fun ls b b' => ?_) _ b b']
  rw [hk b b', hderive _ b b']

theorem outline_method (c : Container) (settings : Settings) (s : Subroutine)
    (before after : List SourceUnit) (unit : SourceUnit) (ds es : List ClassDecl)
    (decl : ClassDecl) (ms ns : List Subroutine) :
    Outline.Varies (fun b => c.outline settings
      (Vacancy.fill (s.withBody b) (.method before unit after ds decl es ms ns))) s := by
  have hfunctions (b : Block) :
      (Vacancy.fill (s.withBody b) (.method before unit after ds decl es ms ns)).flatMap
          (·.functions) =
        before.flatMap (·.functions) ++ (unit.functions ++ after.flatMap (·.functions)) := by
    simp [Vacancy.fill]
  have hglobals (b : Block) :
      (Vacancy.fill (s.withBody b)
          (.method before unit after ds decl es ms ns)).flatMap (·.globals) =
        before.flatMap (·.globals) ++ (unit.globals ++ after.flatMap (·.globals)) := by
    simp [Vacancy.fill]
  let k (b : Block) : ClassDecl := { decl with methods := ms ++ s.withBody b :: ns }
  have hclasses (b : Block) :
      (Vacancy.fill (s.withBody b)
          (.method before unit after ds decl es ms ns)).flatMap (·.classes) =
        (before.flatMap (·.classes) ++ ds) ++ k b :: (es ++ after.flatMap (·.classes)) := by
    simp [Vacancy.fill, k]
  have hderive (base : Option ClassLayout) (b b' : Block) :
      ClassLayout.derive (k b) base = ClassLayout.derive (k b') base := by
    simp only [ClassLayout.derive, List.foldl_append, List.foldl_cons, k]
    rfl
  have hstrip (b b' : Block) : ClassOrder.strip (k b) = ClassOrder.strip (k b') := rfl
  unfold outline
  simp only [hfunctions, hglobals, hclasses]
  generalize (before.flatMap (·.functions) ++ (unit.functions ++ after.flatMap (·.functions))).foldl
    Session.Registered.add { known := Session.signatures c } = r
  generalize (before.flatMap (·.globals) ++ (unit.globals ++ after.flatMap (·.globals))).foldl
    Session.addGlobal { container := c, errors := r.errors } = g
  -- what is found out about the classes is the same, whatever the body is
  obtain ⟨⟨errors, herrors⟩, hnamed⟩ := Session.foldl_addClass_spot (k := k) (fun _ => rfl) c
    (before.flatMap (·.classes) ++ ds) (es ++ after.flatMap (·.classes)) g.errors
  obtain ⟨named, hl⟩ : ∃ named : Block → List ClassDecl, ∀ b,
      ((before.flatMap (·.classes) ++ ds ++ k b :: (es ++ after.flatMap (·.classes))).foldl
        (Session.addClass c) ([], g.errors)).1.reverse = named b := ⟨_, fun _ => rfl⟩
  simp only [hl] at hnamed
  obtain ⟨order, horder⟩ : ∃ order, ∀ b, orderClasses (named b) c = order :=
    ⟨orderClasses (named s.body) c, fun b => by
      rw [← orderClasses_strip, hnamed.map_eq hstrip b s.body, orderClasses_strip]⟩
  have hordered := hnamed.select (horder s.body ▸ orderClasses_nodup (named s.body) c)
  obtain ⟨layouts, hlayouts⟩ : ∃ layouts, ∀ b,
      Session.layouts c (order.1.filterMap ((named b).toArray[·]?)) = layouts :=
    ⟨_, fun b => layouts_spot hordered (fun _ _ => rfl) hderive c b s.body⟩
  constructor
  · simp only [herrors, hl, horder]
    exact ⟨_, fun _ => rfl⟩
  · simp only [Outline.visits, hl, horder, hlayouts]
    obtain ⟨repeated, hmethods⟩ := visitMethods_spot (Session.envOf
      ⟨g.container.globals, r.known, layouts, settings.lineNumbers⟩ decl) s ms ns []
    exact ⟨_, repeated, (hordered.flatMap hmethods).append_left _⟩

/-- Exchanging one body leaves the declarations and all other bodies as they are. -/
theorem outline_varies (c : Container) (settings : Settings) (vacancy : Vacancy) (s : Subroutine) :
    Outline.Varies (fun b => c.outline settings (vacancy.fill (s.withBody b))) s := by
  cases vacancy with
  | function before unit after fs gs =>
    exact outline_function c settings s before after unit fs gs
  | method before unit after ds decl es ms ns =>
    exact outline_method c settings s before after unit ds es decl ms ns

end Container

/-! Compilations. -/

def Compilation.errors (r : Compilation) : List Diagnostic :=
  r.diagnostics.filter Diagnostic.isError

def Compilation.Overflows (r : Compilation) : Prop := overflow.toDiagnostic ∈ r.diagnostics

instance (r : Compilation) : Decidable r.Overflows :=
  inferInstanceAs (Decidable (overflow.toDiagnostic ∈ r.diagnostics))

structure Container.Separates (c : Container) (settings : Settings) : Prop where
  /-- A container comes of it just if no error is reported. -/
  conclusive : ∀ units, (c.compile settings units).container.isSome ↔
    (c.compile settings units).hasErrors = false
  /-- The errors of the declarations come first, then at most one for each body. -/
  found : ∀ units, ¬ (c.compile settings units).Overflows →
    (c.compile settings units).errors =
      ((c.outline settings units).start.errors.reverse ++
        (c.outline settings units).visits.filterMap Visit.error?).map (·.toDiagnostic)
  /-- Exchanging a body exchanges its own error, if it has one or gets one, and no other. -/
  steady : ∀ (vacancy : Vacancy) (s : Subroutine),
    ∃ before after : List CompileError, ∃ own : Block → Option CompileError,
      (∀ b, ¬ (c.compile settings (vacancy.fill (s.withBody b))).Overflows →
        (c.compile settings (vacancy.fill (s.withBody b))).errors =
          (before ++ (own b).toList ++ after).map (·.toDiagnostic)) ∧
      ((∃ e, ∀ b, own b = e) ∨ ∃ env, ∀ b, own b = (s.withBody b).error? env)

namespace Container

variable {c : Container} {sources : List SourceUnit}

/-- What is reported is what the bodies add to what the declarations have. -/
theorem Grown.errors_eq (h : Grown sources c) (settings : Settings) (units : List SourceUnit) :
    (c.compile settings units).errors =
        (c.outline settings units).run.2.errors.reverse.map (·.toDiagnostic) ∧
      (c.compile settings units).container.isSome =
        !(c.compile settings units).hasErrors ∧
      ((c.outline settings units).run.2.errors.map (·.toDiagnostic)) ⊆
        (c.compile settings units).diagnostics := by
  have hquiet : (c.outline settings units).start.warnings = [] :=
    (Session.foldl_addGlobal_frame _ _).2
  have hmild := (c.outline settings units).run_reports.mild (by rw [hquiet]; simp)
  have hlinks := h.links settings units
  rw [compile_eq]
  unfold conclude Compilation.errors Compilation.hasErrors
  generalize (c.outline settings units).run = r at hlinks hmild
  have hwarnings : r.2.warnings.reverse.filter Diagnostic.isError = [] :=
    List.filter_eq_nil_iff.mpr fun d hd =>
      Bool.eq_false_iff.mp (hmild d (List.mem_reverse.mp hd))
  have hnone : r.2.warnings.reverse.any Diagnostic.isError = false :=
    List.any_eq_false.mpr fun d hd => Bool.eq_false_iff.mp (hmild d (List.mem_reverse.mp hd))
  have hall (es : List CompileError) : (es.map (·.toDiagnostic)).filter Diagnostic.isError =
      es.map (·.toDiagnostic) :=
    List.filter_eq_self.mpr fun d hd => by
      obtain ⟨e, -, rfl⟩ := List.mem_map.mp hd
      rfl
  rcases hr : r.2.errors with _ | ⟨e, es⟩
  · obtain ⟨linked, hlink⟩ := hlinks hr
    rw [hlink]
    exact ⟨hwarnings, by rw [hnone]; rfl, List.nil_subset _⟩
  · dsimp only
    refine ⟨?_, ?_, fun d hd => ?_⟩
    · rw [List.filter_append, hall, hwarnings, List.append_nil]
    · rw [List.any_append, hnone, List.reverse_cons, List.map_append, List.any_append]
      simp [CompileError.toDiagnostic, Diagnostic.isError]
    · rw [List.map_reverse]
      exact List.mem_append_left _ (List.mem_reverse.mpr hd)

theorem Grown.errors_of_room (h : Grown sources c) {settings : Settings}
    {units : List SourceUnit} (hroom : ¬ (c.compile settings units).Overflows) :
    (c.compile settings units).errors =
      ((c.outline settings units).start.errors.reverse ++
        (c.outline settings units).visits.filterMap Visit.error?).map (·.toDiagnostic) := by
  obtain ⟨herrors, -, hreported⟩ := h.errors_eq settings units
  have hsound : (c.outline settings units).start.pool.Sound := by
    rw [show (c.outline settings units).start.pool = c.pool from
      (Session.foldl_addGlobal_frame _ _).1]
    exact h.legible.pool
  rw [herrors, (c.outline settings units).run_reports.errors hsound]
  exact fun hmem => hroom (hreported (List.mem_map_of_mem hmem))

/-- Compilation onto any container that sessions made looks at each body for itself. -/
theorem Grown.separates (h : Grown sources c) (settings : Settings) : c.Separates settings where
  conclusive units := by
    rw [(h.errors_eq settings units).2.1, Bool.not_eq_true']
  found _ hroom := h.errors_of_room hroom
  steady vacancy s := by
    obtain ⟨⟨start, hstart⟩, env, repeated, hvisits⟩ := c.outline_varies settings vacancy s
    have hown : (∃ e, ∀ b, Visit.error? ⟨env, s.withBody b, repeated⟩ = e) ∨
        ∃ place, ∀ b, Visit.error? ⟨env, s.withBody b, repeated⟩ =
          (s.withBody b).error? place := by
      cases repeated with
      | true => exact .inl ⟨some (.duplicateFunction s.name.text s.name.span), fun _ => rfl⟩
      | false => exact .inr ⟨env, fun _ => rfl⟩
    rcases hvisits with ⟨xs, hxs⟩ | ⟨xs, ys, hxs⟩ <;> dsimp only at hxs
    · refine ⟨start.errors.reverse, xs.filterMap Visit.error?, fun _ => none, fun b hroom => ?_,
        .inl ⟨none, fun _ => rfl⟩⟩
      rw [h.errors_of_room hroom, hstart, hxs]
      simp
    · refine ⟨start.errors.reverse ++ xs.filterMap Visit.error?, ys.filterMap Visit.error?,
        fun b => Visit.error? ⟨env, s.withBody b, repeated⟩, fun b hroom => ?_, hown⟩
      rw [h.errors_of_room hroom, hstart, hxs, List.filterMap_append, List.filterMap_cons]
      dsimp only
      cases Visit.error? ⟨env, s.withBody b, repeated⟩ <;> simp

def giving (name : String) : Block := ⟨[.return_ (some (.name name)) .synthetic], .synthetic⟩

/-- A function that gives a name that nobody knows, and room for one behind it. -/
def spoiled : Vacancy := .function [] {} [] [⟨.identifier "f", [], giving "x"⟩] []

/-- The first error stays where it is when the second one goes. -/
theorem Grown.separates_spoiled : ∃ (c : Container) (s : Subroutine) (b b' : Block),
    Grown [] c ∧ c.Separates {} ∧
      ¬ (c.compile {} (spoiled.fill (s.withBody b))).Overflows ∧
      ¬ (c.compile {} (spoiled.fill (s.withBody b'))).Overflows ∧
      (c.compile {} (spoiled.fill (s.withBody b))).errors.length = 2 ∧
      (c.compile {} (spoiled.fill (s.withBody b'))).errors =
        (c.compile {} (spoiled.fill (s.withBody b))).errors.take 1 := by
  refine ⟨ofSettings {}, ⟨.identifier "g", [.identifier "y"], giving "z"⟩, giving "z", giving "y",
    .start {}, Grown.separates (.start {}) {}, ?_⟩
  decide +kernel

end Container

end Lss
