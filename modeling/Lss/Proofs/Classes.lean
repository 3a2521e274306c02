import Lss.Proofs.Sessions

/-!
# Classes of a session

A class starts as a copy of its base and takes its own methods in. Whatever is known of a method
and stays true as tables grow is then known of every method of every class, own or inherited; and
no method that a class declares is lost to another.
-/
namespace Lss

open Lower

section

variable {R S : Pool → Subroutine → Code → Prop} {p q : Pool}

structure MethodEntry.Bears (R : Pool → Subroutine → Code → Prop) (q : Pool) (e : MethodEntry)
    (m : Subroutine) : Prop where
  name : q.symbols.get? e.symbol.index = some m.name.text
  code : R q m e.code

structure ClassEntry.Made (R : Pool → Subroutine → Code → Prop) (q : Pool) (k : ClassEntry) :
    Prop where
  properties : ∀ s ∈ k.properties, (q.symbols.get? s.index).isSome
  methods : ∀ e ∈ k.methods, ∃ m, e.Bears R q m

def ClassEntry.Has (R : Pool → Subroutine → Code → Prop) (q : Pool) (k : ClassEntry)
    (ms : List Subroutine) : Prop :=
  ∀ m ∈ ms, ∃ e ∈ k.methods, e.Bears R q m

def Persists (R : Pool → Subroutine → Code → Prop) : Prop :=
  ∀ p q m code, p.Extends q → R p m code → R q m code

theorem MethodEntry.Bears.imp (hpq : p.Extends q) {e : MethodEntry} {m : Subroutine}
    (hS : R p m e.code → S q m e.code) (h : e.Bears R p m) : e.Bears S q m :=
  ⟨hpq.symbols.get? h.name, hS h.code⟩

theorem ClassEntry.Made.imp (hpq : p.Extends q) (hS : ∀ m code, R p m code → S q m code)
    {k : ClassEntry} (h : k.Made R p) : k.Made S q := by
  refine ⟨fun s hs => ?_, fun e he => ?_⟩
  · obtain ⟨name, hname⟩ := Option.isSome_iff_exists.mp (h.properties s hs)
    rw [hpq.symbols.get? hname]
    rfl
  · obtain ⟨m, hm⟩ := h.methods e he
    exact ⟨m, hm.imp hpq (hS m e.code)⟩

theorem ClassEntry.Has.imp (hpq : p.Extends q) (hS : ∀ m code, R p m code → S q m code)
    {k : ClassEntry} {ms : List Subroutine} (h : k.Has R p ms) : k.Has S q ms := by
  intro m hm
  obtain ⟨e, he, hbears⟩ := h m hm
  exact ⟨e, he, hbears.imp hpq (hS m e.code)⟩

theorem ClassEntry.Made.mono (hR : Persists R) (hpq : p.Extends q) {k : ClassEntry}
    (h : k.Made R p) : k.Made R q :=
  h.imp hpq fun m code => hR p q m code hpq

theorem ClassEntry.Has.mono (hR : Persists R) (hpq : p.Extends q) {k : ClassEntry}
    {ms : List Subroutine} (h : k.Has R p ms) : k.Has R q ms :=
  h.imp hpq fun m code => hR p q m code hpq

end

namespace Session

variable {R : Pool → Subroutine → Code → Prop} {s t : Session}

theorem mem_putMethod {m e : MethodEntry} {ms : List MethodEntry} (h : e ∈ putMethod m ms) :
    e = m ∨ e ∈ ms := by
  induction ms with
  | nil => exact Or.inl (List.mem_singleton.mp h)
  | cons n ns ih =>
    unfold putMethod at h
    split at h
    · rcases List.mem_cons.mp h with h | h
      · exact Or.inl h
      · exact Or.inr (List.mem_cons_of_mem n h)
    · rcases List.mem_cons.mp h with rfl | h
      · exact Or.inr List.mem_cons_self
      · exact (ih h).imp_right (List.mem_cons_of_mem n)

theorem self_mem_putMethod (m : MethodEntry) (ms : List MethodEntry) : m ∈ putMethod m ms := by
  induction ms with
  | nil => exact List.mem_singleton_self m
  | cons n ns ih =>
    unfold putMethod
    split
    · exact List.mem_cons_self
    · exact List.mem_cons_of_mem n ih

theorem mem_putMethod_of_ne {m e : MethodEntry} {ms : List MethodEntry} (h : e ∈ ms)
    (hne : e.symbol ≠ m.symbol) : e ∈ putMethod m ms := by
  induction ms with
  | nil => cases h
  | cons n ns ih =>
    unfold putMethod
    split
    · next heq =>
      rcases List.mem_cons.mp h with rfl | h
      · exact absurd heq hne
      · exact List.mem_cons_of_mem m h
    · rcases List.mem_cons.mp h with rfl | h
      · exact List.mem_cons_self
      · exact List.mem_cons_of_mem n (ih h)

theorem addProperty_snd (k : ClassEntry) (s : Session) (p : Token) :
    (addProperty (k, s) p).2 = (s.run (Lower.symbol p.text)).2 := by
  simp only [addProperty]
  rcases s.run (Lower.symbol p.text) with ⟨_ | symbol, t⟩ <;> rfl

theorem suffix_addProperty (x : ClassEntry × Session) (p : Token) :
    x.2.errors <:+ (addProperty x p).2.errors := by
  rw [addProperty_snd]
  exact suffix_run x.2 _

theorem foldl_addProperty (hR : Persists R) {ps : List Token} {k k' : ClassEntry}
    (hp : s.pool.Exact) (hk : k.Made R s.pool) (h : ps.foldl addProperty (k, s) = (k', t))
    (ht : t.errors = []) : Advances s t ∧ k'.Made R t.pool ∧ k'.name = k.name := by
  induction ps generalizing k s with
  | nil =>
    cases h
    exact ⟨.refl ht hp, hk, rfl⟩
  | cons p ps ih =>
    rw [List.foldl_cons] at h
    have hmid := addProperty_snd k s p
    generalize hrun : s.run (Lower.symbol p.text) = r at hmid
    obtain ⟨found, mid⟩ := r
    have herr : mid.errors = [] := by
      have := suffix_foldl (e := fun x : ClassEntry × Session => x.2.errors) suffix_addProperty ps
        (addProperty (k, s) p)
      rw [h, hmid] at this
      exact nil_of_suffix this ht
    obtain ⟨hadv, symbol, q, rfl, -, hq, hname⟩ :=
      run_advances (Meets.symbol p.text) hp hrun herr
    have hname := hq.symbols.get? hname
    have hk := hk.mono hR hadv.extends_
    -- an inherited property is not added again
    have hstep : ∃ k₁, addProperty (k, s) p = (k₁, mid) ∧ k₁.Made R mid.pool ∧
        k₁.name = k.name := by
      simp only [addProperty, hrun]
      by_cases hold : k.hasProperty symbol
      · exact ⟨k, by simp [hold], hk, rfl⟩
      · refine ⟨{ k with properties := k.properties ++ [symbol] }, by simp [hold], ⟨?_, hk.methods⟩,
          rfl⟩
        intro s hs
        rcases List.mem_append.mp hs with hs | hs
        · exact hk.properties s hs
        · rw [List.mem_singleton.mp hs, hname]
          rfl
    obtain ⟨k₁, heq, hk₁, hsame⟩ := hstep
    rw [heq] at h
    obtain ⟨hrest, hmade, hnames⟩ := ih hadv.exact hk₁ h
    exact ⟨hadv.trans hrest, hmade, hnames.trans hsame⟩

structure ClassDraft.Holds (R : Pool → Subroutine → Code → Prop) (done : List Subroutine)
    (d : ClassDraft) : Prop where
  exact : d.session.pool.Exact
  made : d.entry.Made R d.session.pool
  has : d.entry.Has R d.session.pool done
  seen : ∀ m ∈ done, m.name.text ∈ d.seen

theorem suffix_addMethod (env : Env) (d : ClassDraft) (m : Subroutine) :
    d.session.errors <:+ (addMethod env d m).session.errors := by
  obtain ⟨entry, seen, session⟩ := d
  simp only [addMethod]
  split
  · exact List.suffix_cons _ _
  · have hsymbol := suffix_run session (Lower.symbol m.name.text)
    split
    · next mid hrun =>
      rw [hrun] at hsymbol
      exact hsymbol
    · next symbol mid hrun =>
      rw [hrun] at hsymbol
      have hbody := suffix_run mid (lowerSubroutine env m)
      split
      · next last hlast =>
        rw [hlast] at hbody
        exact hsymbol.trans hbody
      · next code last hlast =>
        rw [hlast] at hbody
        exact hsymbol.trans hbody

/-- A method is added under its own name, which no other method of the class has. -/
theorem ClassDraft.Holds.addMethod (hR : Persists R) {env : Env} (hg : env.globals.Exact)
    {done : List Subroutine} {d : ClassDraft} {m : Subroutine}
    (hnew : ∀ q code, LoweredInto q env m code → R q m code) (h : d.Holds R done)
    (herr : (addMethod env d m).session.errors = []) :
    (Session.addMethod env d m).Holds R (m :: done) ∧
      Advances d.session (Session.addMethod env d m).session ∧
      (Session.addMethod env d m).entry.name = d.entry.name := by
  obtain ⟨entry, seen, session⟩ := d
  simp only [Session.addMethod] at herr ⊢
  split at herr
  · cases herr
  next hseen =>
  rw [if_neg hseen]
  generalize hrun : session.run (Lower.symbol m.name.text) = r at *
  obtain ⟨_ | symbol, mid⟩ := r
  · obtain ⟨-, _, _, hnone, -⟩ := run_advances (Meets.symbol m.name.text) h.exact hrun herr
    cases hnone
  have hsuffix := suffix_run mid (lowerSubroutine env m)
  generalize hlow : mid.run (lowerSubroutine env m) = r at hsuffix
  obtain ⟨body, last⟩ := r
  have hlast : last.errors = [] := by
    simp only [hlow] at herr
    cases body <;> exact herr
  have hmid : mid.errors = [] := nil_of_suffix hsuffix hlast
  obtain ⟨hadv, _, q, hsome, -, hq, hname⟩ :=
    run_advances (Meets.symbol m.name.text) h.exact hrun hmid
  cases hsome
  obtain ⟨hadv', code, q', rfl, hrun', hq', -⟩ :=
    run_advances (lowerSubroutine_meets hg m) hadv.exact hlow hlast
  simp only [hlow]
  have hbears : MethodEntry.Bears R last.pool ⟨symbol, code⟩ m := by
    refine ⟨(hq.trans hadv'.extends_).symbols.get? hname, hnew _ _ ?_⟩
    exact ⟨mid.pool, q', hadv.exact, hrun', hq'⟩
  have hall := hadv.trans hadv'
  have hmade := h.made.mono hR hall.extends_
  refine ⟨⟨hall.exact, ⟨hmade.properties, fun e he => ?_⟩, fun n hn => ?_, fun n hn => ?_⟩, hall,
    trivial⟩
  · rcases mem_putMethod he with rfl | he
    · exact ⟨m, hbears⟩
    · exact hmade.methods e he
  · rcases List.mem_cons.mp hn with rfl | hn
    · exact ⟨_, self_mem_putMethod _ _, hbears⟩
    · obtain ⟨e, he, hkept⟩ := h.has.mono hR hall.extends_ n hn
      refine ⟨e, mem_putMethod_of_ne he fun heq => hseen ?_, hkept⟩
      have hsame := hkept.name
      rw [heq, hbears.name, Option.some.injEq] at hsame
      rw [hsame]
      exact List.contains_iff_mem.mpr (h.seen n hn)
  · rcases List.mem_cons.mp hn with rfl | hn
    · exact List.mem_cons_self
    · exact List.mem_cons_of_mem _ (h.seen n hn)

theorem ClassDraft.Holds.foldl (hR : Persists R) (env : Env) (hg : env.globals.Exact)
    {ms done : List Subroutine} {d : ClassDraft}
    (hnew : ∀ m ∈ ms, ∀ q code, LoweredInto q env m code → R q m code) (h : d.Holds R done)
    (herr : (ms.foldl (Session.addMethod env) d).session.errors = []) :
    (ms.foldl (Session.addMethod env) d).Holds R (ms.reverse ++ done) ∧
      Advances d.session (ms.foldl (Session.addMethod env) d).session ∧
      (ms.foldl (Session.addMethod env) d).entry.name = d.entry.name := by
  induction ms generalizing d done with
  | nil => exact ⟨h, .refl herr h.exact, rfl⟩
  | cons m ms ih =>
    rw [List.foldl_cons] at herr ⊢
    have hstep : (Session.addMethod env d m).session.errors = [] := by
      refine nil_of_suffix (suffix_foldl (e := fun d : ClassDraft => d.session.errors) ?_ ms _) herr
      exact suffix_addMethod env
    obtain ⟨hone, hadv, hname⟩ := h.addMethod hR hg (hnew m List.mem_cons_self) hstep
    obtain ⟨hall, hrest, hnames⟩ := ih (fun n hn => hnew n (List.mem_cons_of_mem m hn)) hone herr
    refine ⟨?_, hadv.trans hrest, hnames.trans hname⟩
    simpa using hall

theorem suffix_addClassEntry (declared : Declared) (s : Session) (decl : ClassDecl) :
    s.errors <:+ (addClassEntry declared s decl).errors := by
  have hprops (k : ClassEntry) : s.errors <:+ (decl.properties.foldl addProperty (k, s)).2.errors :=
    suffix_foldl (e := fun x : ClassEntry × Session => x.2.errors) suffix_addProperty
      decl.properties (k, s)
  simp only [addClassEntry]
  exact (hprops _).trans (suffix_foldl (e := fun d : ClassDraft => d.session.errors)
    (suffix_addMethod _) decl.methods { entry := _, session := _ })

def envOf (declared : Declared) (decl : ClassDecl) : Env :=
  { declared with owner := declared.classes[decl.name.text]? }

def Classes (R : Pool → Subroutine → Code → Prop) (s : Session) : Prop :=
  s.pool.Exact ∧ ∀ k ∈ s.container.classes, k.Made R s.pool

def HasClass (R : Pool → Subroutine → Code → Prop) (s : Session) (decl : ClassDecl) : Prop :=
  ∃ k ∈ s.container.classes, k.name = decl.name.text ∧ k.Has R s.pool decl.methods

/-- A declaration gives a class of its name with its methods, and the others stay. -/
theorem addClassEntry_spec (hR : Persists R) {declared : Declared}
    (hg : declared.globals.Exact) {decl : ClassDecl}
    (hnew : ∀ m ∈ decl.methods, ∀ q code,
      LoweredInto q (envOf declared decl) m code → R q m code)
    (h : Classes R s) (herr : (addClassEntry declared s decl).errors = []) :
    Grows s (addClassEntry declared s decl) ∧ Classes R (addClassEntry declared s decl) ∧
      s.container.classes <+: (addClassEntry declared s decl).container.classes ∧
      HasClass R (addClassEntry declared s decl) decl := by
  obtain ⟨hexact, hclasses⟩ := h
  simp only [addClassEntry] at herr ⊢
  -- the base is a class of the container, or nothing
  generalize hbase : ((decl.base.bind fun b =>
    s.container.classes.find? (·.name == b.text)).getD { name := "" }) = base at *
  have hmade : base.Made R s.pool := by
    cases hfind : decl.base.bind fun b => s.container.classes.find? (·.name == b.text) with
    | none =>
      rw [hfind] at hbase
      subst hbase
      exact ⟨by simp, by simp⟩
    | some k =>
      rw [hfind] at hbase
      subst hbase
      obtain ⟨b, -, hk⟩ := Option.bind_eq_some_iff.mp hfind
      exact hclasses k (List.mem_of_find?_eq_some hk)
  have hnamed : ClassEntry.Made R s.pool { base with name := decl.name.text } :=
    ⟨hmade.properties, hmade.methods⟩
  generalize hprops : decl.properties.foldl addProperty
    ({ base with name := decl.name.text }, s) = r at *
  obtain ⟨entry, mid⟩ := r
  generalize hmethods : decl.methods.foldl (addMethod (envOf declared decl))
    { entry, session := mid } = d
  simp only [envOf] at hmethods
  simp only [hmethods] at herr ⊢
  have hmid : mid.errors = [] := by
    have := suffix_foldl (e := fun d : ClassDraft => d.session.errors)
      (suffix_addMethod (envOf declared decl)) decl.methods { entry, session := mid }
    simp only [envOf, hmethods] at this
    exact nil_of_suffix this herr
  obtain ⟨hadv, hentry, hname⟩ := foldl_addProperty hR hexact hnamed hprops hmid
  have hstart : ClassDraft.Holds R [] { entry, session := mid } :=
    ⟨hadv.exact, hentry, by simp [ClassEntry.Has], by simp⟩
  obtain ⟨hdone, hadv', hname'⟩ :=
    hstart.foldl hR (envOf declared decl) hg hnew
      (by simp only [envOf, hmethods]; exact herr)
  simp only [envOf, hmethods, List.append_nil] at hdone hadv' hname'
  have hall := hadv.trans hadv'
  have hold : d.session.container.classes = s.container.classes := hall.classes
  refine ⟨⟨hall.errors, hall.exact, hall.extends_, hall.globals⟩, ⟨hall.exact, ?_⟩, ?_, ?_⟩
  · intro k hk
    rcases List.mem_append.mp hk with hk | hk
    · rw [hold] at hk
      exact (hclasses k hk).mono hR hall.extends_
    · rw [List.mem_singleton.mp hk]
      exact hdone.made
  · rw [← hold]
    exact List.prefix_append _ _
  · refine ⟨d.entry, by simp, hname'.trans hname, ?_⟩
    intro m hm
    exact hdone.has m (List.mem_reverse.mpr hm)

theorem foldl_addClassEntry (hR : Persists R) {declared : Declared}
    (hg : declared.globals.Exact) {decls : List ClassDecl}
    (hnew : ∀ decl ∈ decls, ∀ m ∈ decl.methods, ∀ q code,
      LoweredInto q (envOf declared decl) m code → R q m code)
    (h : Classes R s) (herr : (decls.foldl (addClassEntry declared) s).errors = []) :
    Grows s (decls.foldl (addClassEntry declared) s) ∧
      Classes R (decls.foldl (addClassEntry declared) s) ∧
      s.container.classes <+: (decls.foldl (addClassEntry declared) s).container.classes ∧
      ∀ decl ∈ decls, HasClass R (decls.foldl (addClassEntry declared) s) decl := by
  induction decls generalizing s with
  | nil => exact ⟨.refl herr h.1, h, List.prefix_refl _, by simp⟩
  | cons decl decls ih =>
    rw [List.foldl_cons] at herr ⊢
    have hstep : (addClassEntry declared s decl).errors = [] := by
      refine nil_of_suffix (suffix_foldl (e := Session.errors) ?_ decls _) herr
      exact suffix_addClassEntry declared
    obtain ⟨hgrow, hclasses, hkeep, hone⟩ :=
      addClassEntry_spec hR hg (hnew decl List.mem_cons_self) h hstep
    obtain ⟨hgrow', hclasses', hkeep', hrest⟩ :=
      ih (fun d hd => hnew d (List.mem_cons_of_mem decl hd)) hclasses herr
    refine ⟨hgrow.trans hgrow', hclasses', hkeep.trans hkeep', ?_⟩
    intro d hd
    rcases List.mem_cons.mp hd with rfl | hd
    · obtain ⟨k, hk, hname, hhas⟩ := hone
      exact ⟨k, hkeep'.subset hk, hname, hhas.mono hR hgrow'.extends_⟩
    · exact hrest d hd

end Session

end Lss
