import Lss.Proofs.Classes
import Lss.Proofs.Compiled
import Lss.Proofs.Interned

/-!
# Compilation in stages

A session collects errors and goes on. One that ends without any is a single computation: the names
are registered, then functions and classes are lowered one after another, and nothing fails on the
way. This module says so exactly, for every container and all units.
-/
namespace Lss

namespace Lower

variable {α : Type} {f : Lower α} {p q : Pool} {a : α}

def quiet (f : Lower α) : Lower α := fun p =>
  match f.run.run ⟨p.strings, p.symbols, []⟩ with
  | (r, q) => (r, ⟨q.strings, q.symbols, []⟩)

theorem run_quiet (f : Lower α) (p : Pool) : (quiet f).run.run p =
    ((f.run.run ⟨p.strings, p.symbols, []⟩).1,
      ⟨(f.run.run ⟨p.strings, p.symbols, []⟩).2.strings,
        (f.run.run ⟨p.strings, p.symbols, []⟩).2.symbols, []⟩) := rfl

theorem Interning.quiet (hf : Interning f) : Interning (quiet f) := by
  intro p
  rw [run_quiet]
  have hstart : p.Interns ⟨p.strings, p.symbols, []⟩ := .warn [] .refl
  exact .warn [] (hstart.trans (hf _))

end Lower

open Lower

/-! The stages. -/

def lowerFunctions (env : Env) (fs : List Subroutine) : Lower (List FunctionEntry) :=
  fs.mapM fun f => do
    return ⟨f.name.text, Session.parameterCount f, ← quiet (lowerSubroutine env f)⟩

def lowerProperty (k : ClassEntry) (t : Token) : Lower ClassEntry := do
  let symbol ← quiet (Lower.symbol t.text)
  return if k.hasProperty symbol then k else { k with properties := k.properties ++ [symbol] }

def lowerMethod (env : Env) (k : ClassEntry) (m : Subroutine) : Lower ClassEntry := do
  let symbol ← quiet (Lower.symbol m.name.text)
  let code ← quiet (lowerSubroutine env m)
  return { k with methods := Session.putMethod ⟨symbol, code⟩ k.methods }

/-- What a class starts with: the members of its base among the classes so far. -/
def inherited (ks : List ClassEntry) (d : ClassDecl) : ClassEntry :=
  { (d.base.bind fun b => ks.find? (·.name == b.text)).getD { name := "" } with
    name := d.name.text }

def lowerClass (declared : Declared) (ks : List ClassEntry) (d : ClassDecl) :
    Lower (List ClassEntry) := do
  let k ← d.properties.foldlM lowerProperty (inherited ks d)
  let k ← d.methods.foldlM (lowerMethod (Session.envOf declared d)) k
  return ks ++ [k]

def lowerClasses (declared : Declared) (ks : List ClassEntry) (ds : List ClassDecl) :
    Lower (List ClassEntry) :=
  ds.foldlM (lowerClass declared) ks

def NameTable.admit? (t : NameTable) (name : String) : Option NameTable :=
  match t.intern name with
  | (.ok _, u) => some u
  | (.error _, _) => none

namespace Container

variable (c : Container) (settings : Settings) (units : List SourceUnit)

def newFunctions : List Subroutine := units.flatMap (·.functions)

def newClasses : List ClassDecl := units.flatMap (·.classes)

def orderedClasses : List ClassDecl :=
  (orderClasses (newClasses units) c).1.filterMap ((newClasses units).toArray[·]?)

def declaredBy (globals : NameTable) : Declared where
  globals
  functions := (newFunctions units).foldl
    (fun m f => m.insert f.name.text (Session.parameterCount f)) (Session.signatures c)
  classes := Session.layouts c (c.orderedClasses units)
  lineNumbers := settings.lineNumbers

/-- The names that units declare are new and fit, and their classes have an order. -/
structure Registers (globals : NameTable) : Prop where
  functions : ((newFunctions units).map (·.name.text)).Nodup
  freshFunctions : ∀ f ∈ newFunctions units, f.name.text ∉ Session.signatures c
  globals : (units.flatMap (·.globals)).foldlM (fun t g => t.admit? g.text) c.globals = some globals
  classes : ((newClasses units).map (·.name.text)).Nodup
  freshClasses : ∀ d ∈ newClasses units, c.findClass? d.name.text = none
  order : (orderClasses (newClasses units) c).2 = []
  methods : ∀ d ∈ newClasses units, (d.methods.map (·.name.text)).Nodup

/-- All bodies of the units: the functions, and the classes behind those of the container. -/
def lowerUnits (globals : NameTable) : Lower (List FunctionEntry × List ClassEntry) := do
  let declared := c.declaredBy settings units globals
  let es ← lowerFunctions { declared with } (newFunctions units)
  let ks ← lowerClasses declared c.classes (c.orderedClasses units)
  return (es, ks)

def assemble (globals : NameTable) (lowered : List FunctionEntry × List ClassEntry) (q : Pool) :
    Container :=
  { c with
    strings := q.strings
    symbols := q.symbols
    globals
    functions := c.functions ++ lowered.1
    classes := lowered.2 }

end Container

/-! Sessions and stages. -/

theorem NameTable.admit?_eq_some {t u : NameTable} {name : String} :
    t.admit? name = some u ↔ ∃ i, t.intern name = (.ok i, u) := by
  unfold admit?
  rcases t.intern name with ⟨e | i, grown⟩ <;> simp

namespace Container

def withPool (c : Container) (q : Pool) : Container :=
  { c with strings := q.strings, symbols := q.symbols }

theorem pool_withPool {c : Container} {q : Pool} (h : q.warnings = []) :
    (c.withPool q).pool = q := by
  obtain ⟨strings, symbols, warnings⟩ := q
  subst h
  rfl

end Container

namespace Session

variable {α : Type} {f : Lower α} {s : Session} {a : α} {q : Pool} {e : CompileError}

structure Reaches (s t : Session) (q : Pool) : Prop where
  errors : t.errors = s.errors
  container : t.container = s.container.withPool q
  quiet : q.warnings = []

theorem Reaches.pool {t : Session} (h : Reaches s t q) : t.pool = q := by
  rw [Session.pool, h.container]
  exact Container.pool_withPool h.quiet

theorem Reaches.trans {t u : Session} {r : Pool} (h : Reaches s t q) (k : Reaches t u r) :
    Reaches s u r :=
  ⟨k.errors.trans h.errors, by rw [k.container, h.container]; rfl, k.quiet⟩

theorem run_of_ok (h : (quiet f).run.run s.pool = (.ok a, q)) :
    ∃ t, s.run f = (some a, t) ∧ Reaches s t q := by
  obtain ⟨⟨major, minor, strings, symbols, globals, functions, classes⟩, errors, warnings⟩ := s
  rw [run_quiet] at h
  simp only [pool, Container.pool] at h
  generalize hr : f.run.run ⟨strings, symbols, []⟩ = r at h
  obtain ⟨result, q'⟩ := r
  cases h
  exact ⟨⟨⟨major, minor, q'.strings, q'.symbols, globals, functions, classes⟩, errors,
    q'.warnings ++ warnings⟩, by simp only [run, hr], rfl, rfl, rfl⟩

theorem run_of_error (h : (quiet f).run.run s.pool = (.error e, q)) :
    ∃ t, s.run f = (none, t) ∧ t.errors ≠ [] := by
  obtain ⟨⟨major, minor, strings, symbols, globals, functions, classes⟩, errors, warnings⟩ := s
  rw [run_quiet] at h
  simp only [pool, Container.pool] at h
  generalize hr : f.run.run ⟨strings, symbols, []⟩ = r at h
  obtain ⟨result, q'⟩ := r
  cases h
  exact ⟨⟨⟨major, minor, q'.strings, q'.symbols, globals, functions, classes⟩, e :: errors,
    warnings⟩, by simp only [run, hr], List.cons_ne_nil e errors⟩

/-- Nothing that follows takes an error back. -/
theorem errors_ne_nil {a b : List CompileError} (h : a <:+ b) (ha : a ≠ []) : b ≠ [] :=
  fun hb => ha (nil_of_suffix h hb)

section Functions

variable {env : Env} {fs : List Subroutine} {es : List FunctionEntry}

def registered (f : Subroutine) : Subroutine × UInt8 := (f, parameterCount f)

theorem lowerFunctions_cons (f : Subroutine) (fs : List Subroutine) :
    lowerFunctions env (f :: fs) = do
      let code ← quiet (lowerSubroutine env f)
      let es ← lowerFunctions env fs
      return ⟨f.name.text, parameterCount f, code⟩ :: es := by
  simp [lowerFunctions]

theorem foldl_addFunction_of_ok (acc : List FunctionEntry)
    (h : (lowerFunctions env fs).run.run s.pool = (.ok es, q)) :
    ∃ t, (fs.map registered).foldl (addFunction env) (acc, s) = (es.reverse ++ acc, t) ∧
      Reaches s t q := by
  induction fs generalizing s acc es with
  | nil =>
    cases h
    exact ⟨s, rfl, rfl, rfl, rfl⟩
  | cons f fs ih =>
    rw [lowerFunctions_cons] at h
    obtain ⟨code, p, hcode, h⟩ := run_bind_eq_ok.mp h
    obtain ⟨t, ht, hreach⟩ := run_of_ok hcode
    obtain ⟨rest, r, hrest, h⟩ := run_bind_eq_ok.mp h
    cases h
    rw [← hreach.pool] at hrest
    obtain ⟨u, hu, hlast⟩ := ih (⟨f.name.text, parameterCount f, code⟩ :: acc) hrest
    refine ⟨u, ?_, hreach.trans hlast⟩
    rw [List.map_cons, List.foldl_cons]
    simp only [registered, addFunction, ht, Option.getD_some]
    simpa [registered] using hu

theorem foldl_addFunction_of_error (acc : List FunctionEntry)
    (h : (lowerFunctions env fs).run.run s.pool = (.error e, q)) :
    ((fs.map registered).foldl (addFunction env) (acc, s)).2.errors ≠ [] := by
  induction fs generalizing s acc with
  | nil => cases h
  | cons f fs ih =>
    rw [lowerFunctions_cons, run_bind] at h
    rw [List.map_cons, List.foldl_cons]
    split at h
    · next code p hcode =>
      obtain ⟨t, ht, hreach⟩ := run_of_ok hcode
      simp only [registered, addFunction, ht]
      rw [run_bind, ← hreach.pool] at h
      split at h
      · cases h
      · next hrest =>
        cases h
        exact ih _ hrest
    · next hcode =>
      cases h
      obtain ⟨t, ht, herr⟩ := run_of_error hcode
      simp only [registered, addFunction, ht]
      exact errors_ne_nil (suffix_foldl (e := fun x : List FunctionEntry × Session => x.2.errors)
        (suffix_addFunction env) _ _) herr

end Functions

section Classes

variable {k k' : ClassEntry} {ps : List Token} {ms : List Subroutine} {seen : List String}
  {env : Env}

theorem foldl_addProperty_of_ok
    (h : (ps.foldlM lowerProperty k : Lower ClassEntry).run.run s.pool = (.ok k', q)) :
    ∃ t, ps.foldl addProperty (k, s) = (k', t) ∧ Reaches s t q := by
  induction ps generalizing s k with
  | nil =>
    cases h
    exact ⟨s, rfl, rfl, rfl, rfl⟩
  | cons p ps ih =>
    rw [List.foldlM_cons, lowerProperty, bind_assoc] at h
    obtain ⟨symbol, r, hsymbol, h⟩ := run_bind_eq_ok.mp h
    obtain ⟨t, ht, hreach⟩ := run_of_ok hsymbol
    rw [pure_bind, ← hreach.pool] at h
    obtain ⟨u, hu, hlast⟩ := ih h
    refine ⟨u, ?_, hreach.trans hlast⟩
    rw [List.foldl_cons]
    simp only [addProperty, ht]
    exact hu

theorem foldl_addProperty_of_error
    (h : (ps.foldlM lowerProperty k : Lower ClassEntry).run.run s.pool = (.error e, q)) :
    (ps.foldl addProperty (k, s)).2.errors ≠ [] := by
  induction ps generalizing s k with
  | nil => cases h
  | cons p ps ih =>
    rw [List.foldlM_cons, lowerProperty, bind_assoc, run_bind] at h
    rw [List.foldl_cons]
    split at h
    · next symbol r hsymbol =>
      obtain ⟨t, ht, hreach⟩ := run_of_ok hsymbol
      rw [pure_bind, ← hreach.pool] at h
      simp only [addProperty, ht]
      exact ih h
    · next hsymbol =>
      cases h
      obtain ⟨t, ht, herr⟩ := run_of_error hsymbol
      simp only [addProperty, ht]
      exact errors_ne_nil (suffix_foldl (e := fun x : ClassEntry × Session => x.2.errors)
        suffix_addProperty _ _) herr

/-- A method whose name is new to the class. -/
theorem addMethod_of_ok {m : Subroutine} (hnew : m.name.text ∉ seen)
    (h : (lowerMethod env k m).run.run s.pool = (.ok k', q)) :
    ∃ t, addMethod env ⟨k, seen, s⟩ m = ⟨k', m.name.text :: seen, t⟩ ∧ Reaches s t q := by
  rw [lowerMethod] at h
  obtain ⟨symbol, r, hsymbol, h⟩ := run_bind_eq_ok.mp h
  obtain ⟨t, ht, hreach⟩ := run_of_ok hsymbol
  rw [← hreach.pool] at h
  obtain ⟨code, r', hcode, h⟩ := run_bind_eq_ok.mp h
  obtain ⟨u, hu, hlast⟩ := run_of_ok hcode
  cases h
  refine ⟨u, ?_, hreach.trans hlast⟩
  simp [addMethod, hnew, ht, hu]

theorem addMethod_of_error {m : Subroutine}
    (h : m.name.text ∈ seen ∨ (lowerMethod env k m).run.run s.pool = (.error e, q)) :
    (addMethod env ⟨k, seen, s⟩ m).session.errors ≠ [] := by
  unfold addMethod
  by_cases hseen : m.name.text ∈ seen
  · simp [hseen, fail]
  · have h := h.resolve_left hseen
    simp only [List.contains_iff_mem, hseen, if_false]
    rw [lowerMethod, run_bind] at h
    split at h
    · next symbol r hsymbol =>
      obtain ⟨t, ht, hreach⟩ := run_of_ok hsymbol
      rw [← hreach.pool, run_bind] at h
      split at h
      · cases h
      · next hcode =>
        obtain ⟨u, hu, herr⟩ := run_of_error hcode
        simp only [ht, hu]
        exact herr
    · next hsymbol =>
      obtain ⟨t, ht, herr⟩ := run_of_error hsymbol
      simp only [ht]
      exact herr

theorem foldl_addMethod_of_ok (hms : (ms.map (·.name.text)).Nodup)
    (hnew : ∀ m ∈ ms, m.name.text ∉ seen)
    (h : (ms.foldlM (lowerMethod env) k : Lower ClassEntry).run.run s.pool = (.ok k', q)) :
    ∃ seen' t, ms.foldl (addMethod env) ⟨k, seen, s⟩ = ⟨k', seen', t⟩ ∧ Reaches s t q := by
  induction ms generalizing s k seen with
  | nil =>
    cases h
    exact ⟨seen, s, rfl, rfl, rfl, rfl⟩
  | cons m ms ih =>
    rw [List.map_cons, List.nodup_cons] at hms
    rw [List.foldlM_cons] at h
    obtain ⟨k₁, r, hone, h⟩ := run_bind_eq_ok.mp h
    obtain ⟨t, ht, hreach⟩ := addMethod_of_ok (hnew m List.mem_cons_self) hone
    rw [← hreach.pool] at h
    have hfresh : ∀ n ∈ ms, n.name.text ∉ m.name.text :: seen := by
      intro n hn hmem
      rcases List.mem_cons.mp hmem with heq | hmem
      · exact hms.1 (heq ▸ List.mem_map_of_mem hn)
      · exact hnew n (List.mem_cons_of_mem m hn) hmem
    obtain ⟨seen', u, hu, hlast⟩ := ih hms.2 hfresh h
    exact ⟨seen', u, by rw [List.foldl_cons, ht, hu], hreach.trans hlast⟩

theorem foldl_addMethod_of_error
    (h : ¬ (ms.map (·.name.text)).Nodup ∨ (∃ m ∈ ms, m.name.text ∈ seen) ∨
      (ms.foldlM (lowerMethod env) k : Lower ClassEntry).run.run s.pool = (.error e, q)) :
    (ms.foldl (addMethod env) ⟨k, seen, s⟩).session.errors ≠ [] := by
  induction ms generalizing s k seen with
  | nil =>
    rcases h with h | ⟨m, hm, -⟩ | h
    · exact absurd List.nodup_nil h
    · cases hm
    · cases h
  | cons m ms ih =>
    rw [List.foldl_cons]
    have hlater : (addMethod env ⟨k, seen, s⟩ m).session.errors ≠ [] →
        (ms.foldl (addMethod env) (addMethod env ⟨k, seen, s⟩ m)).session.errors ≠ [] :=
      errors_ne_nil (suffix_foldl (e := fun d : ClassDraft => d.session.errors)
        (suffix_addMethod env) ms _)
    by_cases hseen : m.name.text ∈ seen
    · exact hlater (addMethod_of_error (e := e) (q := q) (.inl hseen))
    rcases hone : (lowerMethod env k m).run.run s.pool with ⟨e' | k₁, r⟩
    · exact hlater (addMethod_of_error (.inr hone))
    · obtain ⟨t, ht, hreach⟩ := addMethod_of_ok hseen hone
      rw [ht]
      refine ih ?_
      rcases h with h | ⟨n, hn, hmem⟩ | h
      · rw [List.map_cons, List.nodup_cons, not_and_or, not_not] at h
        rcases h with h | h
        · obtain ⟨n, hn, heq⟩ := List.mem_map.mp h
          exact .inr (.inl ⟨n, hn, heq ▸ List.mem_cons_self⟩)
        · exact .inl h
      · rcases List.mem_cons.mp hn with rfl | hn
        · exact absurd hmem hseen
        · exact .inr (.inl ⟨n, hn, List.mem_cons_of_mem _ hmem⟩)
      · rw [List.foldlM_cons, run_bind, hone] at h
        rw [hreach.pool]
        exact .inr (.inr h)

end Classes

structure Stands (s t : Session) (ks : List ClassEntry) (q : Pool) : Prop where
  errors : t.errors = s.errors
  container : t.container = { s.container.withPool q with classes := ks }
  quiet : q.warnings = []

theorem Stands.pool {t : Session} {ks : List ClassEntry} (h : Stands s t ks q) : t.pool = q := by
  rw [Session.pool, h.container]
  exact Container.pool_withPool (c := s.container) h.quiet

theorem addClassEntry_of_ok {declared : Declared} {ks : List ClassEntry} {d : ClassDecl}
    (hms : (d.methods.map (·.name.text)).Nodup)
    (h : (lowerClass declared s.container.classes d).run.run s.pool = (.ok ks, q)) :
    Stands s (addClassEntry declared s d) ks q := by
  rw [lowerClass] at h
  obtain ⟨k, r, hprops, h⟩ := run_bind_eq_ok.mp h
  obtain ⟨t, ht, hreach⟩ := foldl_addProperty_of_ok hprops
  rw [← hreach.pool] at h
  obtain ⟨k', r', hmethods, h⟩ := run_bind_eq_ok.mp h
  obtain ⟨seen, u, hu, hlast⟩ := foldl_addMethod_of_ok hms (fun _ _ => List.not_mem_nil) hmethods
  cases h
  have hall := hreach.trans hlast
  have hadd : addClassEntry declared s d =
      { u with container := { u.container with classes := u.container.classes ++ [k'] } } := by
    simp only [inherited] at ht
    simp only [envOf] at hu
    simp only [addClassEntry, ht, hu]
  rw [hadd]
  refine ⟨hall.errors, ?_, hall.quiet⟩
  simp only [hall.container]
  rfl

theorem addClassEntry_of_error {declared : Declared} {d : ClassDecl}
    (h : ¬ (d.methods.map (·.name.text)).Nodup ∨
      (lowerClass declared s.container.classes d).run.run s.pool = (.error e, q)) :
    (addClassEntry declared s d).errors ≠ [] := by
  have hlater (x : ClassEntry × Session) (hx : x.2.errors ≠ []) :
      (d.methods.foldl (addMethod (envOf declared d))
        { entry := x.1, session := x.2 }).session.errors ≠ [] :=
    errors_ne_nil (suffix_foldl (e := fun d : ClassDraft => d.session.errors)
      (suffix_addMethod _) d.methods { entry := x.1, session := x.2 }) hx
  show (d.methods.foldl (addMethod (envOf declared d))
    { entry := (d.properties.foldl addProperty (inherited s.container.classes d, s)).1
      session := (d.properties.foldl addProperty
        (inherited s.container.classes d, s)).2 }).session.errors ≠ []
  rcases hprops : (d.properties.foldlM lowerProperty (inherited s.container.classes d) :
    Lower ClassEntry).run.run s.pool with ⟨e' | k, r⟩
  · exact hlater _ (foldl_addProperty_of_error hprops)
  · obtain ⟨t, ht, hreach⟩ := foldl_addProperty_of_ok hprops
    rw [ht]
    refine foldl_addMethod_of_error (e := e) (q := q) ?_
    rcases h with h | h
    · exact .inl h
    · rw [lowerClass, run_bind, hprops] at h
      simp only [run_bind] at h
      rw [hreach.pool]
      split at h
      · cases h
      · next hmethods =>
        cases h
        exact .inr (.inr hmethods)

theorem foldl_addClassEntry_of_ok {declared : Declared} {ks : List ClassEntry}
    {ds : List ClassDecl} (hms : ∀ d ∈ ds, (d.methods.map (·.name.text)).Nodup)
    (h : (lowerClasses declared s.container.classes ds).run.run s.pool = (.ok ks, q)) :
    Stands s (ds.foldl (addClassEntry declared) s) ks q := by
  induction ds generalizing s with
  | nil =>
    cases h
    exact ⟨rfl, rfl, rfl⟩
  | cons d ds ih =>
    rw [lowerClasses, List.foldlM_cons] at h
    obtain ⟨ks₁, r, hone, h⟩ := run_bind_eq_ok.mp h
    have hfirst := addClassEntry_of_ok (hms d List.mem_cons_self) hone
    rw [← hfirst.pool] at h
    have hclasses : (addClassEntry declared s d).container.classes = ks₁ := by
      rw [hfirst.container]
    have hrest := ih (s := addClassEntry declared s d)
      (fun x hx => hms x (List.mem_cons_of_mem d hx)) (by rw [hclasses]; exact h)
    rw [List.foldl_cons]
    refine ⟨hrest.errors.trans hfirst.errors, ?_, hrest.quiet⟩
    rw [hrest.container, hfirst.container]
    rfl

theorem foldl_addClassEntry_of_error {declared : Declared} {ds : List ClassDecl}
    (h : (∃ d ∈ ds, ¬ (d.methods.map (·.name.text)).Nodup) ∨
      (lowerClasses declared s.container.classes ds).run.run s.pool = (.error e, q)) :
    (ds.foldl (addClassEntry declared) s).errors ≠ [] := by
  induction ds generalizing s with
  | nil =>
    rcases h with ⟨d, hd, -⟩ | h
    · cases hd
    · cases h
  | cons d ds ih =>
    rw [List.foldl_cons]
    have hlater : (addClassEntry declared s d).errors ≠ [] →
        (ds.foldl (addClassEntry declared) (addClassEntry declared s d)).errors ≠ [] :=
      errors_ne_nil (suffix_foldl (e := Session.errors) (suffix_addClassEntry declared) ds _)
    by_cases hms : (d.methods.map (·.name.text)).Nodup
    · rcases hone : (lowerClass declared s.container.classes d).run.run s.pool with ⟨e' | ks, r⟩
      · exact hlater (addClassEntry_of_error (.inr hone))
      · have hfirst := addClassEntry_of_ok hms hone
        have hclasses : (addClassEntry declared s d).container.classes = ks := by
          rw [hfirst.container]
        refine ih ?_
        rcases h with ⟨x, hx, hnot⟩ | h
        · rcases List.mem_cons.mp hx with rfl | hx
          · exact absurd hms hnot
          · exact .inl ⟨x, hx, hnot⟩
        · rw [lowerClasses, List.foldlM_cons, run_bind, hone] at h
          rw [hclasses, hfirst.pool]
          exact .inr h
    · exact hlater (addClassEntry_of_error (e := e) (q := q) (.inl hms))

/-! Registration. -/

theorem foldl_add_of_fresh {r : Registered} {fs : List Subroutine}
    (hnodup : (fs.map (·.name.text)).Nodup) (hfresh : ∀ f ∈ fs, f.name.text ∉ r.known) :
    fs.foldl Registered.add r =
      { known := fs.foldl (fun m f => m.insert f.name.text (parameterCount f)) r.known
        bodies := (fs.map registered).reverse ++ r.bodies
        errors := r.errors } := by
  induction fs generalizing r with
  | nil => rfl
  | cons f fs ih =>
    rw [List.map_cons, List.nodup_cons] at hnodup
    have hadd : r.add f = { r with
        known := r.known.insert f.name.text (parameterCount f)
        bodies := (f, parameterCount f) :: r.bodies } := by
      have := hfresh f List.mem_cons_self
      simp [Registered.add, this, parameterCount]
    rw [List.foldl_cons, hadd, ih hnodup.2]
    · simp [registered]
    · intro g hg hmem
      rcases Std.TreeMap.mem_insert.mp hmem with heq | hmem
      · have := Std.LawfulEqCmp.eq_of_compare heq
        exact hnodup.1 (this ▸ List.mem_map_of_mem hg)
      · exact hfresh g (List.mem_cons_of_mem f hg) hmem

theorem foldl_addGlobal_of_some {names : List Token} {globals : NameTable}
    (h : names.foldlM (fun t g => t.admit? g.text) s.container.globals = some globals) :
    names.foldl addGlobal s = { s with container := { s.container with globals } } := by
  induction names generalizing s with
  | nil =>
    cases h
    rfl
  | cons name names ih =>
    obtain ⟨⟨major, minor, strings, symbols, old, functions, classes⟩, errors, warnings⟩ := s
    rw [List.foldlM_cons] at h
    obtain ⟨grown, hgrown, h⟩ := Option.bind_eq_some_iff.mp h
    obtain ⟨i, hi⟩ := NameTable.admit?_eq_some.mp hgrown
    rw [List.foldl_cons]
    simp only [addGlobal, hi]
    exact ih
      (s := ⟨⟨major, minor, strings, symbols, grown, functions, classes⟩, errors, warnings⟩) h

theorem foldl_addGlobal_of_none {names : List Token}
    (h : names.foldlM (fun t g => t.admit? g.text) s.container.globals = none) :
    (names.foldl addGlobal s).errors ≠ [] := by
  induction names generalizing s with
  | nil => cases h
  | cons name names ih =>
    obtain ⟨⟨major, minor, strings, symbols, old, functions, classes⟩, errors, warnings⟩ := s
    rw [List.foldl_cons]
    rw [List.foldlM_cons] at h
    rcases hi : old.intern name.text with ⟨e | i, grown⟩
    · simp only [addGlobal, hi]
      exact errors_ne_nil (suffix_foldl (e := Session.errors) suffix_addGlobal names _)
        (List.cons_ne_nil _ errors)
    · simp only [addGlobal, hi]
      refine ih (s := ⟨⟨major, minor, strings, symbols, grown, functions, classes⟩, errors,
        warnings⟩) ?_
      rw [NameTable.admit?_eq_some.mpr ⟨i, hi⟩] at h
      exact h

theorem foldl_addClass_of_fresh {taken : Container} {ds acc : List ClassDecl}
    (errors : List CompileError) (hnodup : (ds.map (·.name.text)).Nodup)
    (hfresh : ∀ d ∈ ds, taken.findClass? d.name.text = none ∧
      ∀ x ∈ acc, x.name.text ≠ d.name.text) :
    ds.foldl (addClass taken) (acc, errors) = (ds.reverse ++ acc, errors) := by
  induction ds generalizing acc with
  | nil => rfl
  | cons d ds ih =>
    rw [List.map_cons, List.nodup_cons] at hnodup
    obtain ⟨htaken, hacc⟩ := hfresh d List.mem_cons_self
    have hadd : addClass taken (acc, errors) d = (d :: acc, errors) := by
      have : acc.any (·.name.text == d.name.text) = false := by simpa using hacc
      simp only [addClass, htaken, this]
      rfl
    rw [List.foldl_cons, hadd, ih hnodup.2]
    · simp
    · intro e he
      obtain ⟨hnew, hold⟩ := hfresh e (List.mem_cons_of_mem d he)
      refine ⟨hnew, fun x hx => ?_⟩
      rcases List.mem_cons.mp hx with rfl | hx
      · exact fun heq => hnodup.1 (heq ▸ List.mem_map_of_mem he)
      · exact hold x hx

theorem fresh_of_foldl_addClass {taken : Container} {ds acc : List ClassDecl}
    {errors : List CompileError} (h : (ds.foldl (addClass taken) (acc, errors)).2 = []) :
    (ds.map (·.name.text)).Nodup ∧ ∀ d ∈ ds, taken.findClass? d.name.text = none ∧
      ∀ x ∈ acc, x.name.text ≠ d.name.text := by
  induction ds generalizing acc errors with
  | nil => exact ⟨List.nodup_nil, by simp⟩
  | cons d ds ih =>
    rw [List.foldl_cons] at h
    unfold addClass at h
    split at h
    · exact absurd (foldl_addClass h).1 (List.cons_ne_nil _ _)
    · next hnew =>
      obtain ⟨hnodup, hfresh⟩ := ih h
      rw [Bool.or_eq_true, not_or] at hnew
      have hacc : ∀ x ∈ acc, x.name.text ≠ d.name.text := by simpa using hnew.2
      refine ⟨?_, ?_⟩
      · rw [List.map_cons, List.nodup_cons]
        refine ⟨fun hmem => ?_, hnodup⟩
        obtain ⟨e, he, heq⟩ := List.mem_map.mp hmem
        exact (hfresh e he).2 d List.mem_cons_self heq.symm
      · intro e he
        rcases List.mem_cons.mp he with rfl | he
        · exact ⟨by simpa using hnew.1, hacc⟩
        · exact ⟨(hfresh e he).1, fun x hx => (hfresh e he).2 x (List.mem_cons_of_mem d hx)⟩

end Session

namespace Container

variable {c c' : Container} {settings : Settings} {units : List SourceUnit}

def registration (c : Container) (globals : NameTable) : Session :=
  { container := { c with globals } }

/-- What compilation makes of units whose names are registered. -/
theorem compile_of_registers {globals : NameTable} (h : c.Registers units globals)
    {es : List FunctionEntry} {s t : Session}
    (hs : ((newFunctions units).map Session.registered).foldl
      (Session.addFunction { c.declaredBy settings units globals with })
      ([], c.registration globals) = (es, s))
    (ht : (c.orderedClasses units).foldl
      (Session.addClassEntry (c.declaredBy settings units globals)) s = t) :
    (c.compile settings units).container =
      if t.errors = [] then
        ({ t.container with functions := c.functions ++ es.reverse } : Container).link.toOption
      else none := by
  have hfunctions := Session.foldl_add_of_fresh (r := { known := Session.signatures c })
    h.functions h.freshFunctions
  have hglobals := Session.foldl_addGlobal_of_some (s := { container := c }) h.globals
  have hclasses := Session.foldl_addClass_of_fresh [] h.classes fun d hd =>
    ⟨h.freshClasses d hd, fun _ hx => absurd hx List.not_mem_nil⟩
  unfold newFunctions at hfunctions
  unfold newClasses at hclasses
  unfold compile
  simp only [hfunctions, hglobals, hclasses, List.append_nil, List.reverse_reverse]
  have horder := h.order
  unfold newClasses at horder
  simp only [horder, List.reverse_nil]
  unfold declaredBy orderedClasses newFunctions newClasses registration at *
  simp only [hs, ht]
  split
  · next herr =>
    rw [if_pos herr]
    split
    · next hlink => rw [hlink]; rfl
    · next hlink => rw [hlink]; rfl
  · next hne => rw [if_neg (fun hnil => hne hnil)]

/-- A compilation that gives a container got through registration. -/
theorem registers_of_compile (h : (c.compile settings units).container = some c') :
    ∃ globals, c.Registers units globals := by
  rw [compile_eq] at h
  have herr := (conclude_eq_some h).1
  unfold outline Outline.run at herr
  dsimp only at herr
  generalize hr : (units.flatMap (·.functions)).foldl Session.Registered.add
    { known := Session.signatures c } = r at herr
  generalize hs : (units.flatMap (·.globals)).foldl Session.addGlobal
    { container := c, errors := r.errors } = s at herr
  generalize hd : (units.flatMap (·.classes)).foldl (Session.addClass c) ([], s.errors) = d at herr
  generalize ho : orderClasses d.1.reverse c = o at herr
  generalize hordered : o.1.filterMap (d.1.reverse.toArray[·]?) = decls at herr
  generalize Declared.mk s.container.globals r.known (Session.layouts c decls)
    settings.lineNumbers = declared at herr
  generalize hf : r.bodies.reverse.foldl (Session.addFunction { toDeclared := declared })
    ([], { s with errors := o.2.reverse ++ d.2 }) = f at herr
  generalize ht : decls.foldl (Session.addClassEntry declared) f.2 = t at herr
  -- errors are never taken back, so none was made at any stage
  have hmid : f.2.errors = [] := by
    have := Session.suffix_foldl (e := Session.errors) (Session.suffix_addClassEntry declared)
      decls f.2
    rw [ht] at this
    exact Session.nil_of_suffix this herr
  have hstart : o.2.reverse ++ d.2 = [] := by
    have := Session.suffix_foldl (e := fun x : List FunctionEntry × Session => x.2.errors)
      (Session.suffix_addFunction { toDeclared := declared }) r.bodies.reverse
      ([], { s with errors := o.2.reverse ++ d.2 })
    rw [hf] at this
    exact Session.nil_of_suffix this hmid
  obtain ⟨hbroken, hd2⟩ := List.append_eq_nil_iff.mp hstart
  rw [← hd] at hd2
  obtain ⟨hserr, hall⟩ := Session.foldl_addClass hd2
  obtain ⟨hclasses, hfreshClasses⟩ := Session.fresh_of_foldl_addClass hd2
  rw [hd, List.append_nil] at hall
  have hrerr : r.errors = [] := by
    have := Session.suffix_foldl (e := Session.errors) Session.suffix_addGlobal
      (units.flatMap (·.globals)) { container := c, errors := r.errors }
    rw [hs] at this
    exact Session.nil_of_suffix this hserr
  have hreg := Session.registers_foldl (by rw [hr]; exact hrerr)
  have hdecls : d.1.reverse = newClasses units := by rw [hall, List.reverse_reverse]; rfl
  have horder : (orderClasses (newClasses units) c).2 = [] := by
    rw [← hdecls, ho]
    exact List.reverse_eq_nil_iff.mp hbroken
  rcases hglobals : (units.flatMap (·.globals)).foldlM (fun t g => t.admit? g.text) c.globals
    with _ | globals
  · have := Session.foldl_addGlobal_of_none (s := { container := c, errors := r.errors }) hglobals
    rw [hs] at this
    exact absurd hserr this
  refine ⟨globals, hreg.nodup, hreg.fresh, hglobals, hclasses, fun x hx => (hfreshClasses x hx).1,
    horder, fun x hx => ?_⟩
  by_contra hms
  refine Session.foldl_addClassEntry_of_error (e := .internal "") (q := c.pool) (s := f.2)
    (.inl ⟨x, ?_, hms⟩) (by rw [ht]; exact herr)
  rw [← hordered, ← ho, hdecls]
  exact (mem_ordered horder).mpr hx

theorem mem_orderedClasses {globals : NameTable} (h : c.Registers units globals) {d : ClassDecl} :
    d ∈ c.orderedClasses units ↔ d ∈ newClasses units :=
  mem_ordered h.order

theorem compile_of_lowered {globals : NameTable} (hreg : c.Registers units globals)
    {lowered : List FunctionEntry × List ClassEntry} {q : Pool}
    (h : (c.lowerUnits settings units globals).run.run c.pool = (.ok lowered, q)) :
    (c.compile settings units).container = (c.assemble globals lowered q).link.toOption := by
  rw [lowerUnits] at h
  obtain ⟨es, r, hfunctions, h⟩ := run_bind_eq_ok.mp h
  obtain ⟨s, hs, hreach⟩ := Session.foldl_addFunction_of_ok (s := c.registration globals) []
    hfunctions
  obtain ⟨ks, r', hclasses, h⟩ := run_bind_eq_ok.mp h
  cases h
  have hold : s.container.classes = c.classes := by rw [hreach.container]; rfl
  rw [← hreach.pool, ← hold] at hclasses
  have hstands := Session.foldl_addClassEntry_of_ok
    (fun d hd => hreg.methods d ((mem_orderedClasses hreg).mp hd)) hclasses
  have herr : (List.foldl (Session.addClassEntry (c.declaredBy settings units globals)) s
      (c.orderedClasses units)).errors = [] := hstands.errors.trans hreach.errors
  rw [compile_of_registers hreg hs rfl, if_pos herr, hstands.container, hreach.container,
    List.append_nil, List.reverse_reverse]
  rfl

theorem compile_of_failed {globals : NameTable} (hreg : c.Registers units globals)
    {e : CompileError} {q : Pool}
    (h : (c.lowerUnits settings units globals).run.run c.pool = (.error e, q)) :
    (c.compile settings units).container = none := by
  generalize hs : ((newFunctions units).map Session.registered).foldl
    (Session.addFunction { c.declaredBy settings units globals with })
    ([], c.registration globals) = x
  obtain ⟨es, s⟩ := x
  rw [compile_of_registers hreg hs rfl]
  refine if_neg ?_
  rw [lowerUnits, run_bind] at h
  split at h
  · next es r hfunctions =>
    obtain ⟨t, ht, hreach⟩ := Session.foldl_addFunction_of_ok (s := c.registration globals) []
      hfunctions
    rw [hs] at ht
    cases ht
    rw [run_bind] at h
    split at h
    · cases h
    · next e' r' hclasses =>
      have hold : s.container.classes = c.classes := by rw [hreach.container]; rfl
      rw [← hreach.pool, ← hold] at hclasses
      exact Session.foldl_addClassEntry_of_error (.inr hclasses)
  · next e' r hfunctions =>
    have herr := Session.foldl_addFunction_of_error (s := c.registration globals) []
      hfunctions
    rw [hs] at herr
    exact Session.errors_ne_nil (Session.suffix_foldl (e := Session.errors)
      (Session.suffix_addClassEntry _) _ s) herr

/-- Compilation gives a container exactly if registration, every stage of lowering and linking
succeed, and then it is the one that they lead to. -/
theorem compile_eq_some_iff : (c.compile settings units).container = some c' ↔
    ∃ globals lowered q, c.Registers units globals ∧
      (c.lowerUnits settings units globals).run.run c.pool = (.ok lowered, q) ∧
      (c.assemble globals lowered q).link = .ok c' := by
  constructor
  · intro h
    obtain ⟨globals, hreg⟩ := registers_of_compile h
    rcases hrun : (c.lowerUnits settings units globals).run.run c.pool with ⟨e | lowered, q⟩
    · rw [compile_of_failed hreg hrun] at h
      cases h
    · rw [compile_of_lowered hreg hrun] at h
      refine ⟨globals, lowered, q, hreg, hrun, ?_⟩
      cases hlink : (c.assemble globals lowered q).link with
      | error name => simp [hlink, Except.toOption] at h
      | ok d => simpa [hlink, Except.toOption] using h
  · rintro ⟨globals, lowered, q, hreg, hrun, hlink⟩
    rw [compile_of_lowered hreg hrun, hlink]
    rfl

end Container

end Lss
