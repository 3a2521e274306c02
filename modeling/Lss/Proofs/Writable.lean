import Lss.Proofs.Compiled
import Lss.Proofs.LoweredNames

/-!
# Compiled containers can be written

Whatever a source that compiles says, the names in its container are names that a program can have,
and the numbers in its code are finite. So the text of the container can be read again.
-/
namespace Lss

open Lower

namespace Session

variable {s : Session} {α : Type} {H : Prop} {Q : α → Prop}

theorem addGlobal_writable (hs : s.container.Writable) {t : Token} (ht : IsName t.text) :
    (addGlobal s t).container.Writable := by
  obtain ⟨⟨major, minor, strings, symbols, globals, functions, classes⟩, errors, warnings⟩ := s
  have hglobals : ∀ name ∈ (globals.intern t.text).2.toList, IsName name :=
    NameTable.intern_all hs.globals ht
  rcases hi : globals.intern t.text with ⟨i | e, grown⟩ <;> rw [hi] at hglobals
  · simp only [addGlobal, hi]
    exact ⟨hs.symbols, hglobals, hs.functions, hs.classes⟩
  · simp only [addGlobal, hi]
    exact ⟨hs.symbols, hglobals, hs.functions, hs.classes⟩

theorem foldl_addGlobal_writable {ts : List Token} (hts : ∀ t ∈ ts, IsName t.text)
    (hs : s.container.Writable) : (ts.foldl addGlobal s).container.Writable := by
  induction ts generalizing s with
  | nil => exact hs
  | cons t ts ih =>
    obtain ⟨ht, hts⟩ := List.forall_mem_cons.mp hts
    exact ih hts (addGlobal_writable hs ht)

/-- Running a computation changes tables only, and keeps their names. -/
theorem run_writable {f : Lower α} (hf : Writes H f Q) (h : H) (hs : s.container.Writable) :
    (s.run f).2.container.Writable ∧ ∀ a ∈ (s.run f).1, Q a := by
  obtain ⟨⟨major, minor, strings, symbols, globals, functions, classes⟩, errors, warnings⟩ := s
  obtain ⟨hnamed, ha⟩ := hf ⟨strings, symbols, []⟩
  have hnamed := hnamed h hs.symbols
  rcases hrun : f.run.run ⟨strings, symbols, []⟩ with ⟨e | a, ⟨strings', symbols', more⟩⟩ <;>
    rw [hrun] at hnamed ha
  · simp only [run, hrun]
    refine ⟨⟨hnamed, hs.globals, hs.functions, hs.classes⟩, fun b hb => ?_⟩
    cases hb
  · simp only [run, hrun]
    refine ⟨⟨hnamed, hs.globals, hs.functions, hs.classes⟩, fun b hb => ?_⟩
    cases hb
    exact ha a rfl

theorem addFunction_writable {env : Env} (henv : env.Named) {r : List FunctionEntry × Session}
    {f : Subroutine × UInt8} (hf : f.1.Proper)
    (hr : (∀ e ∈ r.1, IsName e.name ∧ e.code.Finite) ∧ r.2.container.Writable) :
    (∀ e ∈ (addFunction env r f).1, IsName e.name ∧ e.code.Finite) ∧
      (addFunction env r f).2.container.Writable := by
  obtain ⟨entries, s⟩ := r
  obtain ⟨f, count⟩ := f
  obtain ⟨hs, hcode⟩ := run_writable (lowerSubroutine_writes hf.names) henv hr.2
  have hfinite : ((s.run (lowerSubroutine env f)).1.getD []).Finite := by
    cases hrun : (s.run (lowerSubroutine env f)).1 with
    | none => exact Code.finite_nil
    | some code => exact hcode code hrun
  exact ⟨List.forall_mem_cons.mpr ⟨⟨hf.name, hfinite⟩, hr.1⟩, hs⟩

theorem foldl_addFunction_writable {env : Env} (henv : env.Named)
    {bodies : List (Subroutine × UInt8)}
    (hbodies : ∀ b ∈ bodies, b.1.Proper) {r : List FunctionEntry × Session}
    (hr : (∀ e ∈ r.1, IsName e.name ∧ e.code.Finite) ∧ r.2.container.Writable) :
    (∀ e ∈ (bodies.foldl (addFunction env) r).1, IsName e.name ∧ e.code.Finite) ∧
      (bodies.foldl (addFunction env) r).2.container.Writable := by
  induction bodies generalizing r with
  | nil => exact hr
  | cons b bodies ih =>
    obtain ⟨hb, hbodies⟩ := List.forall_mem_cons.mp hbodies
    exact ih hbodies (addFunction_writable henv hb hr)

/-- A class entry has a name that a program can have, and its methods have finite numbers. -/
def EntryWritable (k : ClassEntry) : Prop := IsName k.name ∧ ∀ m ∈ k.methods, m.code.Finite

theorem addProperty_writable {r : ClassEntry × Session} {p : Token} (hp : IsName p.text)
    (hr : EntryWritable r.1 ∧ r.2.container.Writable) :
    EntryWritable (addProperty r p).1 ∧ (addProperty r p).2.container.Writable := by
  obtain ⟨entry, s⟩ := r
  obtain ⟨hs, -⟩ := run_writable (writes_symbol fun _ => hp) trivial hr.2
  unfold addProperty
  dsimp only
  split
  · next symbol t hrun =>
    rw [hrun] at hs
    refine ⟨?_, hs⟩
    split <;> exact hr.1
  · next t hrun =>
    rw [hrun] at hs
    exact ⟨hr.1, hs⟩

theorem putMethod_finite {m : MethodEntry} {ms : List MethodEntry} (hm : m.code.Finite)
    (hms : ∀ x ∈ ms, x.code.Finite) : ∀ x ∈ putMethod m ms, x.code.Finite := by
  induction ms with
  | nil => exact List.forall_mem_singleton.mpr hm
  | cons n ms ih =>
    obtain ⟨hn, hms⟩ := List.forall_mem_cons.mp hms
    unfold putMethod
    split
    · exact List.forall_mem_cons.mpr ⟨hm, hms⟩
    · exact List.forall_mem_cons.mpr ⟨hn, ih hms⟩

theorem addMethod_writable {env : Env} (henv : env.Named) {d : ClassDraft} {m : Subroutine}
    (hm : m.Proper) (hd : EntryWritable d.entry ∧ d.session.container.Writable) :
    EntryWritable (addMethod env d m).entry ∧ (addMethod env d m).session.container.Writable := by
  obtain ⟨entry, seen, s⟩ := d
  unfold addMethod
  dsimp only
  split
  · exact hd
  · obtain ⟨hs, -⟩ := run_writable (writes_symbol fun _ => hm.name) trivial hd.2
    split
    · next t hrun =>
      rw [hrun] at hs
      exact ⟨hd.1, hs⟩
    · next symbol t hrun =>
      rw [hrun] at hs
      obtain ⟨ht, hcode⟩ := run_writable (lowerSubroutine_writes hm.names) henv hs
      split
      · next u hlower =>
        rw [hlower] at ht
        exact ⟨hd.1, ht⟩
      · next code u hlower =>
        rw [hlower] at ht hcode
        exact ⟨⟨hd.1.1, putMethod_finite (hcode code rfl) hd.1.2⟩, ht⟩

theorem foldl_addProperty_writable {ps : List Token} (hps : ∀ t ∈ ps, IsName t.text)
    {r : ClassEntry × Session} (hr : EntryWritable r.1 ∧ r.2.container.Writable) :
    EntryWritable (ps.foldl addProperty r).1 ∧
      (ps.foldl addProperty r).2.container.Writable := by
  induction ps generalizing r with
  | nil => exact hr
  | cons t ts ih =>
    obtain ⟨ht, hts⟩ := List.forall_mem_cons.mp hps
    exact ih hts (addProperty_writable ht hr)

theorem foldl_addMethod_writable {env : Env} (henv : env.Named) {ms : List Subroutine}
    (hms : ∀ m ∈ ms, m.Proper) {d : ClassDraft}
    (hd : EntryWritable d.entry ∧ d.session.container.Writable) :
    EntryWritable (ms.foldl (addMethod env) d).entry ∧
      (ms.foldl (addMethod env) d).session.container.Writable := by
  induction ms generalizing d with
  | nil => exact hd
  | cons m ms ih =>
    obtain ⟨hm, hms⟩ := List.forall_mem_cons.mp hms
    exact ih hms (addMethod_writable henv hm hd)

theorem addClassEntry_writable {declared : Declared} (hdeclared : declared.Named)
    {decl : ClassDecl} (hdecl : decl.Proper) (hs : s.container.Writable) :
    (addClassEntry declared s decl).container.Writable := by
  unfold addClassEntry
  dsimp only
  generalize hbase : (decl.base.bind fun b =>
    s.container.classes.find? (·.name == b.text)).getD { name := "" } = base
  have hfinite : ∀ m ∈ base.methods, m.code.Finite := by
    rw [← hbase]
    cases hfind : decl.base.bind fun b => s.container.classes.find? (·.name == b.text) with
    | none => exact fun _ h => absurd h List.not_mem_nil
    | some k =>
      obtain ⟨b, -, hk⟩ := Option.bind_eq_some_iff.mp hfind
      exact (hs.classes k (List.mem_of_find?_eq_some hk)).2
  have hentry : EntryWritable { base with name := decl.name.text } := ⟨hdecl.name, hfinite⟩
  have hr := foldl_addProperty_writable hdecl.properties (r := (_, s)) ⟨hentry, hs⟩
  generalize decl.properties.foldl addProperty ({ base with name := decl.name.text }, s) = r at hr ⊢
  have henv : (envOf declared decl).Named := hdeclared
  obtain ⟨hentry, hsession⟩ :=
    foldl_addMethod_writable henv hdecl.methods (d := { entry := r.1, session := r.2 }) hr
  refine ⟨hsession.symbols, hsession.globals, hsession.functions, ?_⟩
  exact List.forall_mem_append.mpr ⟨hsession.classes, List.forall_mem_singleton.mpr hentry⟩

theorem foldl_addClassEntry_writable {declared : Declared} (hdeclared : declared.Named)
    {decls : List ClassDecl} (hdecls : ∀ d ∈ decls, d.Proper) (hs : s.container.Writable) :
    (decls.foldl (addClassEntry declared) s).container.Writable := by
  induction decls generalizing s with
  | nil => exact hs
  | cons d decls ih =>
    obtain ⟨hd, hdecls⟩ := List.forall_mem_cons.mp hdecls
    exact ih hdecls (addClassEntry_writable hdeclared hd hs)

/-- Registered functions are those of the units. -/
theorem mem_registered {r : Registered} {fs : List Subroutine} {b : Subroutine × UInt8}
    (h : b ∈ (fs.foldl Registered.add r).bodies) : b.1 ∈ fs ∨ b ∈ r.bodies := by
  induction fs generalizing r with
  | nil => exact .inr h
  | cons f fs ih =>
    rcases ih h with hmem | hmem
    · exact .inl (List.mem_cons_of_mem f hmem)
    · unfold Registered.add at hmem
      split at hmem
      · exact .inr hmem
      · rcases List.mem_cons.mp hmem with rfl | hmem
        · exact .inl List.mem_cons_self
        · exact .inr hmem

theorem mem_addClass {taken : Container} {decls : List ClassDecl}
    {acc : List ClassDecl × List CompileError} {d : ClassDecl}
    (h : d ∈ (decls.foldl (addClass taken) acc).1) : d ∈ decls ∨ d ∈ acc.1 := by
  induction decls generalizing acc with
  | nil => exact .inr h
  | cons c decls ih =>
    rcases ih h with hmem | hmem
    · exact .inl (List.mem_cons_of_mem c hmem)
    · unfold addClass at hmem
      split at hmem
      · exact .inr hmem
      · rcases List.mem_cons.mp hmem with rfl | hmem
        · exact .inl List.mem_cons_self
        · exact .inr hmem

theorem all_named {c : Container} {decls : List ClassDecl} (hc : ∀ k ∈ c.classes, IsName k.name)
    (hdecls : ∀ d ∈ decls, IsName d.name.text) : ∀ l ∈ ClassLayout.all c decls, IsName l.name := by
  unfold ClassLayout.all
  dsimp only
  generalize hstart : (c.classes.map (ClassLayout.ofEntry · c.symbols)).reverse = ls
  have hls : ∀ l ∈ ls, IsName l.name := by
    intro l hl
    rw [← hstart, List.mem_reverse] at hl
    obtain ⟨k, hk, rfl⟩ := List.mem_map.mp hl
    exact hc k hk
  clear hstart
  induction decls generalizing ls with
  | nil => exact hls
  | cons d decls ih =>
    obtain ⟨hd, hdecls⟩ := List.forall_mem_cons.mp hdecls
    exact ih hdecls _ (List.forall_mem_cons.mpr ⟨hd, hls⟩)

theorem layouts_named {c : Container} {decls : List ClassDecl}
    (hc : ∀ k ∈ c.classes, IsName k.name) (hdecls : ∀ d ∈ decls, IsName d.name.text) :
    ∀ name ∈ layouts c decls, IsName name := by
  have hall := all_named hc hdecls
  unfold layouts
  generalize ClassLayout.all c decls = ls at hall
  induction ls with
  | nil =>
    intro name h
    simp at h
  | cons l ls ih =>
    obtain ⟨hl, hls⟩ := List.forall_mem_cons.mp hall
    intro name h
    rw [List.foldr_cons, Std.TreeMap.mem_insert] at h
    rcases h with heq | h
    · have := Std.LawfulEqCmp.eq_of_compare heq
      subst this
      exact hl
    · exact ih hls name h

end Session

namespace Container

theorem Writable.linked {c : Container} (hc : c.Writable) (place : String → UInt32) :
    (c.linked place).Writable := by
  have hcode {code : Code} (h : code.Finite) : (code.linked place).Finite := by
    intro x hx
    obtain ⟨i, hi, heq⟩ := List.mem_map.mp hx
    refine h x ?_
    cases i <;> first | exact heq ▸ hi | cases heq
  refine ⟨hc.symbols, hc.globals, fun f hf => ?_, fun k hk => ?_⟩
  · obtain ⟨e, he, rfl⟩ := List.mem_map.mp hf
    obtain ⟨hname, hfinite⟩ := hc.functions e he
    exact ⟨hname, hcode hfinite⟩
  · obtain ⟨e, he, rfl⟩ := List.mem_map.mp hk
    obtain ⟨hname, hfinite⟩ := hc.classes e he
    refine ⟨hname, fun m hm => ?_⟩
    obtain ⟨x, hx, rfl⟩ := List.mem_map.mp hm
    exact hcode (hfinite x hx)

theorem writable_ofSettings (settings : Settings) : (ofSettings settings).Writable :=
  ⟨nofun, nofun, nofun, nofun⟩

/-- Adding units with proper names keeps a container writable. -/
theorem Writable.compile {c d : Container} {settings : Settings} {units : List SourceUnit}
    (hc : c.Writable) (hu : ∀ u ∈ units, u.Proper)
    (h : (c.compile settings units).container = some d) : d.Writable := by
  unfold Container.compile at h
  dsimp only at h
  generalize hr : (units.flatMap (·.functions)).foldl Session.Registered.add
    { known := Session.signatures c } = r at h
  generalize hs : (units.flatMap (·.globals)).foldl Session.addGlobal
    { container := c, errors := r.errors } = s at h
  generalize hd : (units.flatMap (·.classes)).foldl (Session.addClass c) ([], s.errors) = found at h
  generalize ho : orderClasses found.1.reverse c = o at h
  generalize hdecls : o.1.filterMap (found.1.reverse.toArray[·]?) = decls at h
  generalize hdeclared : Declared.mk s.container.globals r.known (Session.layouts c decls)
    settings.lineNumbers = declared at h
  generalize hf : r.bodies.reverse.foldl (Session.addFunction { toDeclared := declared })
    ([], { s with errors := o.2.reverse ++ found.2 }) = f at h
  have hclasses : ∀ x ∈ decls, x ∈ units.flatMap (·.classes) := by
    intro x hx
    rw [← hdecls] at hx
    obtain ⟨i, -, hi⟩ := List.mem_filterMap.mp hx
    rw [List.getElem?_toArray] at hi
    have hmem := List.mem_reverse.mp (List.mem_of_getElem? hi)
    rw [← hd] at hmem
    exact (Session.mem_addClass hmem).resolve_right List.not_mem_nil
  have hdecls : ∀ x ∈ decls, x.Proper := by
    intro x hx
    obtain ⟨u, hmem, hx⟩ := List.mem_flatMap.mp (hclasses x hx)
    exact (hu u hmem).classes x hx
  have hbodies : ∀ b ∈ r.bodies.reverse, b.1.Proper := by
    intro b hb
    rw [List.mem_reverse, ← hr] at hb
    have hmem := (Session.mem_registered hb).resolve_right List.not_mem_nil
    obtain ⟨u, hunit, hmem⟩ := List.mem_flatMap.mp hmem
    exact (hu u hunit).functions b.1 hmem
  have hglobals : s.container.Writable := by
    rw [← hs]
    refine Session.foldl_addGlobal_writable (fun t ht => ?_) hc
    obtain ⟨u, hmem, ht⟩ := List.mem_flatMap.mp ht
    exact (hu u hmem).globals t ht
  have hnamed : declared.Named := by
    rw [← hdeclared]
    exact Session.layouts_named (fun k hk => (hc.classes k hk).1) fun x hx => (hdecls x hx).name
  have henv : ({ toDeclared := declared } : Env).Named := hnamed
  obtain ⟨hentries, hmid⟩ := Session.foldl_addFunction_writable henv hbodies
    (r := ([], { s with errors := o.2.reverse ++ found.2 })) ⟨nofun, hglobals⟩
  rw [hf] at hentries hmid
  have hlast := Session.foldl_addClassEntry_writable hnamed hdecls hmid
  generalize decls.foldl (Session.addClassEntry declared) f.2 = t at h hlast
  have hmade : (t.container.withFunctions (c.functions ++ f.1.reverse)).Writable := by
    refine ⟨hlast.symbols, hlast.globals, ?_, hlast.classes⟩
    refine List.forall_mem_append.mpr ⟨hc.functions, fun e he => ?_⟩
    exact hentries e (List.mem_reverse.mp he)
  split at h
  · split at h
    · next linked hlink =>
      cases h
      rw [link_eq hlink]
      exact hmade.linked _
    · cases h
  · cases h

/-- A container that sessions built from parsed texts is writable. -/
theorem Grown.writable {sources : List SourceUnit} {c : Container} (h : Grown sources c)
    (hsources : ∀ u ∈ sources, u.Proper) : c.Writable := by
  induction h with
  | start settings => exact writable_ofSettings settings
  | session settings units _ hc ih =>
    obtain ⟨hold, hnew⟩ := List.forall_mem_append.mp hsources
    exact (ih hold).compile hnew hc

theorem container_compileSource (settings : Settings) (source : String) (file : Option String) :
    (compileSource settings source file).container =
      ((ofSettings settings).compile settings [(SourceUnit.ofSource source file).1]).container := by
  unfold compileSource
  rfl

/-- What a source is compiled to is writable, also where something is wrong with its text. -/
theorem compileSource_writable {settings : Settings} {source : String} {file : Option String}
    {c : Container} (h : (compileSource settings source file).container = some c) :
    c.Writable := by
  rw [container_compileSource] at h
  exact (writable_ofSettings settings).compile
    (List.forall_mem_singleton.mpr (SourceUnit.ofSource_proper source file)) h

end Container

end Lss
