import Mathlib.Data.List.Nodup
import Lss.Proofs.Classes
import Lss.Proofs.Registration
import Lss.Proofs.Resolution

/-!
# Compiled containers

Every body of a container that compilation gave comes from a subroutine of the sources: lowering
gave its code, and linking replaced the calls by name. More sources can be added to such a
container, and it stays one.
-/
namespace Lss

section Linked

variable (place : String → UInt32)

def FunctionEntry.linked (e : FunctionEntry) : FunctionEntry :=
  { e with code := e.code.linked place }

def MethodEntry.linked (e : MethodEntry) : MethodEntry := { e with code := e.code.linked place }

def ClassEntry.linked (k : ClassEntry) : ClassEntry :=
  { k with methods := k.methods.map (·.linked place) }

def Container.linked (c : Container) : Container :=
  { c with
    functions := c.functions.map (·.linked place)
    classes := c.classes.map (·.linked place) }

end Linked

namespace Container

theorem link_eq {c d : Container} (h : c.link = .ok d) :
    d = c.linked (Code.placeIn c.targets) := by
  unfold link at h
  obtain ⟨functions, hfunctions, h⟩ := bind_ok h
  obtain ⟨classes, hclasses, h⟩ := bind_ok h
  cases h
  have hfunctions := mapM_ok (g := (·.linked (Code.placeIn c.targets))) (fun e e' he => by
    obtain ⟨code, hcode, he⟩ := bind_ok he
    cases he
    rw [FunctionEntry.linked, Code.link_eq hcode]) hfunctions
  have hclasses := mapM_ok (g := (·.linked (Code.placeIn c.targets))) (fun k k' hk => by
    obtain ⟨methods, hmethods, hk⟩ := bind_ok hk
    cases hk
    have hmethods := mapM_ok (g := (·.linked (Code.placeIn c.targets))) (fun e e' he => by
      obtain ⟨code, hcode, he⟩ := bind_ok he
      cases he
      rw [MethodEntry.linked, Code.link_eq hcode]) hmethods
    rw [ClassEntry.linked, hmethods]) hclasses
  rw [linked, hfunctions, hclasses]

theorem before_linked (place : String → UInt32) (c : Container) (k : Nat) :
    (c.linked place).before k = c.before k := by
  have hsize (es : List FunctionEntry) :
      Code.size ((es.map (·.linked place)).flatMap (·.code)) = Code.size (es.flatMap (·.code)) := by
    induction es with
    | nil => rfl
    | cons e es ih =>
      simp only [List.map_cons, List.flatMap_cons, Code.size_append, ih]
      rw [FunctionEntry.linked, Code.size_linked]
  unfold before linked
  rw [← List.map_take, hsize]

theorem LeadsTo.linked {c : Container} {t : UInt32} {f : String} {argc : UInt8}
    (place : String → UInt32) (h : c.LeadsTo t f argc) : (c.linked place).LeadsTo t f argc := by
  obtain ⟨k, e, hk, hname, hcount, ht⟩ := h
  refine ⟨k, e.linked place, ?_, hname, hcount, ?_⟩
  · simp [Container.linked, hk]
  · rw [before_linked]
    exact ht

end Container

/-- Lowering gave `raw` for a subroutine, and linking sent its calls to where `place` says. -/
structure Emitted (c : Container) (env : Env) (place : String → UInt32) (s : Subroutine)
    (raw code : Code) : Prop where
  globals : env.globals.Exact
  within : env.globals.Extends c.globals
  functions : ∀ f argc, env.functions[f]? = some argc → c.LeadsTo (place f) f argc
  lowered : LoweredInto c.pool env s raw
  code : code = raw.linked place

def Compiled (c : Container) (isMethod : Bool) (s : Subroutine) (code : Code) : Prop :=
  ∃ env place raw, env.owner.isSome = isMethod ∧ Emitted c env place s raw code

structure Container.Extends (c d : Container) : Prop where
  pool : c.pool.Extends d.pool
  globals : c.globals.Extends d.globals
  functions : c.functions <+: d.functions

section

variable {c d : Container} {isMethod : Bool} {s : Subroutine} {code : Code}

theorem Compiled.body (h : Compiled c isMethod s code) :
    BodyOf (Instruction.Resolves c) isMethod s code := by
  obtain ⟨env, place, raw, rfl, hemit⟩ := h
  rw [hemit.code]
  exact (hemit.lowered.body hemit.globals).linked fun n hn i hi =>
    hi.resolves hn hemit.within.size_le hemit.functions

/-- Finished code has no calls by name, so that linking leaves it alone. -/
theorem Compiled.linked_eq (h : Compiled c isMethod s code) (place : String → UInt32) :
    code.linked place = code := by
  obtain ⟨_, _, _, -, -, -, hall⟩ :=
    h.body.forall_mem (fun n i _ hi => hi) (fun n i hi => Instruction.resolves_of_not_isActive hi)
  exact Code.linked_eq_self fun f argc hf => hall _ hf

theorem Compiled.mono (hcd : c.Extends d) (h : Compiled c isMethod s code) :
    Compiled d isMethod s code := by
  obtain ⟨env, place, raw, howner, hemit⟩ := h
  refine ⟨env, place, raw, howner, hemit.globals, hemit.within.trans hcd.globals, ?_, ?_,
    hemit.code⟩
  · exact fun f argc hf => (hemit.functions f argc hf).mono hcd.functions
  · exact hemit.lowered.mono hcd.pool

end

structure FunctionEntry.Bears (c : Container) (s : Subroutine) (e : FunctionEntry) : Prop where
  name : e.name = s.name.text
  parameters : e.parameterCount.toNat = s.parameters.length
  code : Compiled c false s e.code

def FromMethod (c : Container) (sources : List SourceUnit) (_ : Pool) (m : Subroutine)
    (code : Code) : Prop :=
  (∃ d ∈ sources.flatMap (·.classes), m ∈ d.methods) ∧ Compiled c true m code

structure Container.Holds (c : Container) (sources : List SourceUnit) : Prop where
  pool : c.pool.Exact
  globals : c.globals.Exact
  names : (c.functions.map (·.name)).Nodup
  functions : List.Forall₂ (FunctionEntry.Bears c) (sources.flatMap (·.functions)) c.functions
  classes : ∀ k ∈ c.classes, k.Made (FromMethod c sources) c.pool
  declared : ∀ d ∈ sources.flatMap (·.classes), ∃ k ∈ c.classes, k.name = d.name.text ∧
    k.Has (FromMethod c sources) c.pool d.methods

namespace Container

theorem Holds.exists_bears {c : Container} {sources : List SourceUnit} (h : c.Holds sources)
    {e : FunctionEntry} (he : e ∈ c.functions) :
    ∃ s ∈ sources.flatMap (·.functions), FunctionEntry.Bears c s e := by
  obtain ⟨i, hi, rfl⟩ := List.mem_iff_getElem.mp he
  have hlen := h.functions.length_eq
  exact ⟨_, List.get_mem _ ⟨i, hlen ▸ hi⟩, h.functions.get (hlen ▸ hi) hi⟩

theorem holds_nil (settings : Settings) : (ofSettings settings).Holds [] :=
  ⟨⟨NameTable.exact_empty, NameTable.exact_empty⟩, NameTable.exact_empty, List.nodup_nil, .nil,
    by simp [ofSettings], by simp⟩

def withFunctions (c : Container) (functions : List FunctionEntry) : Container :=
  { c with functions }

/-- Code of a method while a session goes on: finished before, or not linked yet. -/
def Underway (c : Container) (sources units : List SourceUnit) (declared : Declared) (q : Pool)
    (m : Subroutine) (code : Code) : Prop :=
  FromMethod c sources q m code ∨
    ∃ d ∈ units.flatMap (·.classes), m ∈ d.methods ∧ declared.classes[d.name.text]?.isSome ∧
      LoweredInto q (Session.envOf declared d) m code

theorem persists_underway (c : Container) (sources units : List SourceUnit)
    (declared : Declared) : Persists (Underway c sources units declared) := by
  intro p q m code hpq h
  rcases h with h | ⟨d, hd, hm, howner, hlow⟩
  · exact Or.inl h
  · exact Or.inr ⟨d, hd, hm, howner, hlow.mono hpq⟩

/-- What a session without errors has made of units before its bodies are linked. -/
structure Adds (c : Container) (sources units : List SourceUnit) (declared : Declared)
    (new : List FunctionEntry) (t : Session) : Prop where
  extends_ : c.globals.Extends declared.globals
  exact : declared.globals.Exact
  globals : t.container.globals = declared.globals
  interned : ((units.flatMap (·.globals)).foldl Session.addGlobal { container := c }).errors = [] ∧
    ((units.flatMap (·.globals)).foldl Session.addGlobal { container := c }).container.globals
      = declared.globals
  pool : t.pool.Exact
  grows : c.pool.Extends t.pool
  known : ∀ name argc, declared.functions[name]? = some argc →
    (Session.signatures c)[name]? = some argc ∨
      ∃ f ∈ units.flatMap (·.functions), f.name.text = name ∧ Session.parameterCount f = argc
  nodup : ((units.flatMap (·.functions)).map (·.name.text)).Nodup
  fresh : ∀ f ∈ units.flatMap (·.functions), f.name.text ∉ Session.signatures c
  functions : List.Forall₂ (fun f e => e.name = f.name.text ∧
    e.parameterCount = Session.parameterCount f ∧
    LoweredInto t.pool { toDeclared := declared } f e.code) (units.flatMap (·.functions)) new
  classes : ∀ k ∈ t.container.classes, k.Made (Underway c sources units declared) t.pool
  kept : c.classes <+: t.container.classes
  declared : ∀ d ∈ units.flatMap (·.classes),
    Session.HasClass (Underway c sources units declared) t d

structure Outline where
  /-- The session once all names are registered. -/
  start : Session
  declared : Declared
  functions : List (Subroutine × UInt8)
  classes : List ClassDecl

def outline (c : Container) (settings : Settings) (units : List SourceUnit) : Outline :=
  let registered := (units.flatMap (·.functions)).foldl Session.Registered.add
    { known := Session.signatures c }
  let s : Session := { container := c, errors := registered.errors }
  let s := (units.flatMap (·.globals)).foldl Session.addGlobal s
  let named := (units.flatMap (·.classes)).foldl (Session.addClass c) ([], s.errors)
  let ordered := orderClasses named.1.reverse c
  let classes := ordered.1.filterMap (named.1.reverse.toArray[·]?)
  { start := { s with errors := ordered.2.reverse ++ named.2 }
    declared :=
      { globals := s.container.globals
        functions := registered.known
        classes := Session.layouts c classes
        lineNumbers := settings.lineNumbers }
    functions := registered.bodies.reverse
    classes }

def Outline.run (o : Outline) : List FunctionEntry × Session :=
  let r := o.functions.foldl (Session.addFunction { o.declared with }) ([], o.start)
  (r.1, o.classes.foldl (Session.addClassEntry o.declared) r.2)

def conclude (c : Container) (r : List FunctionEntry × Session) : Compilation :=
  match r.2.errors with
  | [] =>
    match (r.2.container.withFunctions (c.functions ++ r.1.reverse)).link with
    | .ok linked => ⟨some linked, r.2.warnings.reverse⟩
    | .error name => ⟨none, (CompileError.ofUnlinked name).toDiagnostic :: r.2.warnings.reverse⟩
  | errors => ⟨none, errors.reverse.map (·.toDiagnostic) ++ r.2.warnings.reverse⟩

theorem compile_eq (c : Container) (settings : Settings) (units : List SourceUnit) :
    c.compile settings units = c.conclude (c.outline settings units).run := rfl

/-- A session gives a container if it has no errors and all calls can be linked. -/
theorem conclude_eq_some {c c' : Container} {r : List FunctionEntry × Session}
    (h : (c.conclude r).container = some c') : r.2.errors = [] ∧
      (r.2.container.withFunctions (c.functions ++ r.1.reverse)).link = .ok c' := by
  unfold conclude at h
  split at h
  · next herr =>
    split at h
    · next hlink =>
      cases h
      exact ⟨herr, hlink⟩
    · cases h
  · cases h

theorem outline_adds {c : Container} {settings : Settings} {sources units : List SourceUnit}
    (hc : c.Holds sources) (herr : (c.outline settings units).run.2.errors = []) :
    ∃ declared new t, Adds c sources units declared new t ∧
      (c.outline settings units).run = (new.reverse, t) := by
  unfold outline Outline.run at herr ⊢
  dsimp only at herr ⊢
  generalize hr : (units.flatMap (·.functions)).foldl Session.Registered.add
    { known := Session.signatures c } = r at herr ⊢
  generalize hs : (units.flatMap (·.globals)).foldl Session.addGlobal
    { container := c, errors := r.errors } = s at herr ⊢
  generalize hd : (units.flatMap (·.classes)).foldl (Session.addClass c) ([], s.errors) = d
    at herr ⊢
  generalize ho : orderClasses d.1.reverse c = o at herr ⊢
  generalize hdecls : o.1.filterMap (d.1.reverse.toArray[·]?) = decls at herr ⊢
  generalize hdeclared : Declared.mk s.container.globals r.known (Session.layouts c decls)
    settings.lineNumbers = declared at herr ⊢
  generalize hf : r.bodies.reverse.foldl (Session.addFunction { toDeclared := declared })
    ([], { s with errors := o.2.reverse ++ d.2 }) = f at herr ⊢
  generalize ht : decls.foldl (Session.addClassEntry declared) f.2 = t at herr ⊢
  obtain ⟨entries, mid⟩ := f
  -- no errors at the end, so none at any stage
  have hmid : mid.errors = [] := by
    have := Session.suffix_foldl (e := Session.errors) (Session.suffix_addClassEntry declared)
      decls mid
    rw [ht] at this
    exact Session.nil_of_suffix this herr
  have hstart : o.2.reverse ++ d.2 = [] := by
    have := Session.suffix_foldl (e := fun x : List FunctionEntry × Session => x.2.errors)
      (Session.suffix_addFunction { toDeclared := declared }) r.bodies.reverse
      ([], { s with errors := o.2.reverse ++ d.2 })
    rw [hf] at this
    exact Session.nil_of_suffix this hmid
  obtain ⟨hbroken, hd2⟩ := List.append_eq_nil_iff.mp hstart
  have hbroken : (orderClasses d.1.reverse c).2 = [] := by
    rw [ho]
    exact List.reverse_eq_nil_iff.mp hbroken
  obtain ⟨hserr, hall⟩ := Session.foldl_addClass (by rw [hd]; exact hd2)
  rw [hd, List.append_nil] at hall
  obtain ⟨hrerr, globals, hexact, hext, hcont⟩ :=
    Session.foldl_addGlobal (s := { container := c, errors := r.errors }) hc.globals
      (by rw [hs]; exact hserr)
  rw [hs] at hcont
  have hreg := Session.registers_foldl (by rw [hr]; exact hrerr)
  rw [hr] at hreg
  have hmem (x : ClassDecl) : x ∈ decls ↔ x ∈ units.flatMap (·.classes) := by
    have := mem_ordered hbroken (d := x)
    rw [ho, hdecls, hall, List.reverse_reverse] at this
    exact this
  have hglobals : declared.globals = globals := by rw [← hdeclared, hcont]
  have hg : declared.globals.Exact := by
    rw [hglobals]
    exact hexact
  have hpool : Session.pool { s with errors := o.2.reverse ++ d.2 } = c.pool := by
    simp only [Session.pool, hcont]
    rfl
  obtain ⟨hadv, new, hnew, hfunctions⟩ := Session.foldl_addFunction
    { toDeclared := declared } hg (by rw [hpool]; exact hc.pool) hf hmid
  have hbodies : r.bodies.reverse =
      (units.flatMap (·.functions)).map fun f => (f, Session.parameterCount f) := by
    rw [hreg.bodies, List.append_nil, List.reverse_reverse]
  rw [hbodies, List.forall₂_map_left_iff] at hfunctions
  have hgrown := hadv.extends_
  rw [hpool] at hgrown
  have hclasses : Session.Classes (Underway c sources units declared) mid := by
    refine ⟨hadv.exact, fun k hk => ?_⟩
    rw [hadv.classes, hcont] at hk
    exact (hc.classes k hk).imp hgrown fun m code hm => Or.inl hm
  obtain ⟨hgrow, hdone, hkept, hhas⟩ := Session.foldl_addClassEntry
    (persists_underway c sources units declared) hg (fun decl hdecl m hm q code hlow => Or.inr
      ⟨decl, (hmem decl).mp hdecl, hm, by rw [← hdeclared]; exact Session.isSome_layouts hdecl,
        hlow⟩) hclasses (by rw [ht]; exact herr)
  rw [ht] at hgrow hdone hkept hhas
  refine ⟨declared, new, t, ?_, by rw [hnew, List.append_nil]⟩
  exact
    { extends_ := by rw [hglobals]; exact hext
      exact := hg
      globals := by rw [hgrow.globals, hadv.globals, ← hdeclared]
      interned := by
        rw [show r.errors = [] from hrerr] at hs
        rw [hs, ← hdeclared]
        exact ⟨hserr, rfl⟩
      pool := hdone.1
      grows := hgrown.trans hgrow.extends_
      known := by rw [← hdeclared]; exact hreg.known
      nodup := hreg.nodup
      fresh := hreg.fresh
      functions := hfunctions.imp fun f e he => ⟨he.1, he.2.1, he.2.2.mono hgrow.extends_⟩
      classes := hdone.2
      kept := by rw [hadv.classes, hcont] at hkept; exact hkept
      declared := fun d hd => hhas d ((hmem d).mpr hd) }

theorem compile_adds {c c' : Container} {settings : Settings} {sources units : List SourceUnit}
    (hc : c.Holds sources) (h : (c.compile settings units).container = some c') :
    ∃ declared new t, Adds c sources units declared new t ∧
      (t.container.withFunctions (c.functions ++ new)).link = .ok c' := by
  rw [compile_eq] at h
  obtain ⟨herr, hlink⟩ := conclude_eq_some h
  obtain ⟨declared, new, t, hadds, hrun⟩ := outline_adds hc herr
  rw [hrun, List.reverse_reverse] at hlink
  exact ⟨declared, new, t, hadds, hlink⟩

section

variable {c c' : Container} {sources units : List SourceUnit} {declared : Declared}
  {new : List FunctionEntry} {t : Session}

theorem Adds.names (h : Adds c sources units declared new t) :
    new.map (·.name) = (units.flatMap (·.functions)).map (·.name.text) := by
  have hall := h.functions
  clear h
  generalize units.flatMap (·.functions) = fs at hall ⊢
  induction hall with
  | nil => rfl
  | cons he _ ih => rw [List.map_cons, List.map_cons, ih, he.1]

theorem Adds.nodup_names (hc : c.Holds sources) (h : Adds c sources units declared new t) :
    ((c.functions ++ new).map (·.name)).Nodup := by
  rw [List.map_append, h.names]
  refine List.Nodup.append hc.names h.nodup fun name hold hnew => ?_
  obtain ⟨e, he, rfl⟩ := List.mem_map.mp hold
  obtain ⟨f, hf, hname⟩ := List.mem_map.mp hnew
  exact h.fresh f hf (hname ▸ Session.name_mem_signatures he)

theorem Adds.mem_of_known (h : Adds c sources units declared new t) {f : String} {argc : UInt8}
    (hf : declared.functions[f]? = some argc) :
    ∃ e ∈ c.functions ++ new, e.name = f ∧ e.parameterCount = argc := by
  rcases h.known f argc hf with hf | ⟨g, hg, hname, hcount⟩
  · obtain ⟨e, he, hspec⟩ := Session.mem_signatures hf
    exact ⟨e, List.mem_append_left new he, hspec⟩
  · obtain ⟨i, hi, rfl⟩ := List.mem_iff_getElem.mp hg
    have hlen := h.functions.length_eq
    have hspec := h.functions.get hi (hlen ▸ hi)
    refine ⟨new.get ⟨i, hlen ▸ hi⟩, List.mem_append_right _ (List.get_mem _ _), ?_, ?_⟩
    · exact hspec.1.trans hname
    · exact hspec.2.1.trans hcount

/-- Linking sends every call to the function of its name, which has as many parameters. -/
theorem Adds.leadsTo (hc : c.Holds sources) (h : Adds c sources units declared new t)
    {f : String} {argc : UInt8} (hf : declared.functions[f]? = some argc) :
    let made := t.container.withFunctions (c.functions ++ new)
    (made.linked (Code.placeIn made.targets)).LeadsTo (Code.placeIn made.targets f) f argc := by
  intro made
  obtain ⟨e, he, rfl, hcount⟩ := h.mem_of_known hf
  obtain ⟨k, e', hk, hname, hplace⟩ := target_spec (c := made) (isSome_targets he)
  have hsame : e' = e :=
    List.inj_on_of_nodup_map (h.nodup_names hc) (List.mem_of_getElem? hk) he hname
  subst hsame
  exact LeadsTo.linked _ ⟨k, e', hk, rfl, hcount, hplace⟩

/-! What was added, with its calls linked to the places that `place` says. -/

section

variable {place : String → UInt32} (hc : c.Holds sources) (h : Adds c sources units declared new t)
  (heq : c' = (t.container.withFunctions (c.functions ++ new)).linked place)
include heq

theorem pool_withFunctions_linked : c'.pool = t.pool := by
  rw [heq]
  rfl

include h

theorem Adds.globals_linked : c'.globals = declared.globals := by
  rw [heq]
  exact h.globals

include hc

omit h in
/-- Old bodies are finished, so that linking keeps them. -/
theorem Holds.functions_linked : c'.functions = c.functions ++ new.map (·.linked place) := by
  have hold : c.functions.map (·.linked place) = c.functions := by
    have hall := hc.functions
    generalize sources.flatMap (·.functions) = fs, c.functions = es at hall
    induction hall with
    | nil => rfl
    | cons he _ ih => rw [List.map_cons, ih, FunctionEntry.linked, he.code.linked_eq]
  rw [heq]
  show (c.functions ++ new).map (·.linked place) = _
  rw [List.map_append, hold]

theorem Adds.extends_linked : c.Extends c' := by
  refine ⟨?_, ?_, ?_⟩
  · rw [pool_withFunctions_linked heq]
    exact h.grows
  · rw [h.globals_linked heq]
    exact h.extends_
  · rw [hc.functions_linked heq]
    exact List.prefix_append _ _

variable (hleads : ∀ f argc, declared.functions[f]? = some argc → c'.LeadsTo (place f) f argc)
include hleads

omit hc in
theorem Adds.emitted {env : Env} {s : Subroutine} {raw : Code} (henv : env.toDeclared = declared)
    (hlow : LoweredInto t.pool env s raw) : Emitted c' env place s raw (raw.linked place) := by
  subst henv
  refine ⟨h.exact, ?_, hleads, ?_, rfl⟩
  · rw [h.globals_linked heq]
    exact .refl _
  · rw [pool_withFunctions_linked heq]
    exact hlow

theorem Adds.fromMethod {m : Subroutine} {code : Code}
    (hm : Underway c sources units declared t.pool m code) :
    FromMethod c' (sources ++ units) c'.pool m (code.linked place) := by
  rcases hm with ⟨⟨d, hd, hmem⟩, hcomp⟩ | ⟨d, hd, hmem, howner, hlow⟩
  · rw [hcomp.linked_eq]
    refine ⟨⟨d, ?_, hmem⟩, hcomp.mono (h.extends_linked hc heq)⟩
    rw [List.flatMap_append]
    exact List.mem_append_left _ hd
  · refine ⟨⟨d, ?_, hmem⟩, Session.envOf declared d, place, code, howner,
      h.emitted heq hleads rfl hlow⟩
    rw [List.flatMap_append]
    exact List.mem_append_right _ hd

theorem Adds.has_linked {k : ClassEntry} {ms : List Subroutine}
    (hk : k.Has (Underway c sources units declared) t.pool ms) :
    (k.linked place).Has (FromMethod c' (sources ++ units)) c'.pool ms := by
  intro m hm
  obtain ⟨e, he, hbears⟩ := hk m hm
  refine ⟨e.linked place, List.mem_map_of_mem he, ?_, h.fromMethod hc heq hleads hbears.code⟩
  rw [pool_withFunctions_linked heq]
  exact hbears.name

/-- New functions are those of the units, in their order. -/
theorem Adds.bears_linked : List.Forall₂ (FunctionEntry.Bears c')
    ((sources ++ units).flatMap (·.functions)) c'.functions := by
  rw [hc.functions_linked heq, List.flatMap_append]
  refine List.rel_append (hc.functions.imp fun s e he => ?_) ?_
  · exact ⟨he.name, he.parameters, he.code.mono (h.extends_linked hc heq)⟩
  refine List.forall₂_map_right_iff.mpr (h.functions.imp fun s e he => ?_)
  have hcomp : Compiled c' false s (e.code.linked place) :=
    ⟨{ toDeclared := declared }, place, e.code, rfl, h.emitted heq hleads rfl he.2.2⟩
  refine ⟨he.1, ?_, hcomp⟩
  obtain ⟨count, _, _, hcount, -⟩ := hcomp.body
  have hlt := count.toNat_lt
  show e.parameterCount.toNat = s.parameters.length
  rw [he.2.1, Session.parameterCount, Nat.min_eq_left (by omega), ← hcount, UInt8.ofNat_toNat]

end

/-- Units added to a container that holds its sources: it holds these too. -/
theorem Holds.compile {settings : Settings} (hc : c.Holds sources)
    (h : (c.compile settings units).container = some c') : c'.Holds (sources ++ units) := by
  obtain ⟨declared, new, t, hadds, hlink⟩ := compile_adds hc h
  have hleads (f : String) (argc : UInt8) (hf : declared.functions[f]? = some argc) :=
    hadds.leadsTo hc hf
  have heq := link_eq hlink
  dsimp only at hleads
  rw [← heq] at hleads
  generalize Code.placeIn (t.container.withFunctions (c.functions ++ new)).targets = place
    at heq hleads
  have hpool := pool_withFunctions_linked heq
  have hglobals := hadds.globals_linked heq
  have hclass (k : ClassEntry) (hk : k ∈ t.container.classes) : k.linked place ∈ c'.classes := by
    rw [heq]
    exact List.mem_map_of_mem hk
  refine ⟨?_, ?_, ?_, hadds.bears_linked hc heq hleads, ?_, ?_⟩
  · rw [hpool]
    exact hadds.pool
  · rw [hglobals]
    exact hadds.exact
  · have hnames := hadds.nodup_names hc
    rw [hc.functions_linked heq, List.map_append, List.map_map]
    rw [List.map_append] at hnames
    exact hnames
  · intro k hk
    rw [heq] at hk
    obtain ⟨k₀, hk₀, rfl⟩ := List.mem_map.mp hk
    have hmade := hadds.classes k₀ hk₀
    refine ⟨?_, fun e he => ?_⟩
    · rw [hpool]
      exact hmade.properties
    · obtain ⟨e₀, he₀, rfl⟩ := List.mem_map.mp he
      obtain ⟨m, hbears⟩ := hmade.methods e₀ he₀
      refine ⟨m, ?_, hadds.fromMethod hc heq hleads hbears.code⟩
      rw [hpool]
      exact hbears.name
  · intro d hd
    rw [List.flatMap_append] at hd
    rcases List.mem_append.mp hd with hd | hd
    · obtain ⟨k, hk, hname, hms⟩ := hc.declared d hd
      refine ⟨k.linked place, hclass k (hadds.kept.subset hk), hname,
        hadds.has_linked hc heq hleads ?_⟩
      exact hms.imp hadds.grows fun m code hm => Or.inl hm
    · obtain ⟨k, hk, hname, hms⟩ := hadds.declared d hd
      exact ⟨k.linked place, hclass k hk, hname, hadds.has_linked hc heq hleads hms⟩

end

/-- Containers that sessions build one after another, each on what the one before left, with the
units of all of them. -/
inductive Grown : List SourceUnit → Container → Prop
  | start (settings : Settings) : Grown [] (ofSettings settings)
  | session {sources c c'} (settings : Settings) (units : List SourceUnit) : Grown sources c →
      (c.compile settings units).container = some c' → Grown (sources ++ units) c'

theorem Grown.holds {sources : List SourceUnit} {c : Container} (h : Grown sources c) :
    c.Holds sources := by
  induction h with
  | start settings => exact holds_nil settings
  | session settings units _ hc ih => exact ih.compile hc

/-- A function, and a unit that calls it from loops and branches and from a method. -/
def callee : SourceUnit where
  functions := [⟨.identifier "second", [.identifier "a", .identifier "b"],
    ⟨[.return_ (some (.name "b")) .synthetic], .synthetic⟩⟩]

def caller : SourceUnit where
  globals := [.identifier "all"]
  functions := [⟨.identifier "main", [.identifier "n"],
    ⟨[.doWhile (.ofList
        [.while_ (.name "n") (.if_ (some (.name "n")) (.return_ none .synthetic)
          (some (.if_ none (.ofList []) none .synthetic)) .synthetic)])
        (.call (.name "second") [.name "all", .name "n"] .synthetic),
      .return_ (some (.name "n")) .synthetic,
      .if_ (some (.name "n")) (.ofList []) (some (.if_ none
        (.var (.identifier "m") none) none .synthetic)) .synthetic], .synthetic⟩⟩]
  classes := [⟨.identifier "Box", none, [.identifier "item"], [⟨.identifier "fill", [],
    ⟨[.foreach (.identifier "x") (.name "all")
      (.assign (.operation .this (.access .member) (.name "item"))
        (.call (.name "second") [.name "x", .this] .synthetic))], .synthetic⟩⟩]⟩]

end Container

end Lss
