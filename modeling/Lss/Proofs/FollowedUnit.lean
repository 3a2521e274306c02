import Lss.Proofs.Accumulated
import Lss.Proofs.FollowedBody

/-!
# Functions and classes from two pools

Lowering functions and classes from two pools gives entries that correspond one by one. How their
code is related is left open: classes start with members of others, which may be linked on one side
and not on the other.
-/
namespace Lss

open Lower

namespace Lower

variable {α β γ : Type} {p q : Pool} {f : Lower α} {g : Lower β} {R : Pool → Pool → α → β → Prop}

/-- What is to be shown may use that the tables are sound. -/
theorem Follows.of_sound (h : p.Sound → q.Sound → Follows p q f g R) : Follows p q f g R :=
  fun hp hq => h hp hq hp hq

theorem Follows.quiet (h : ∀ p q, Follows p q f g R)
    (hR : ∀ p q p' q' a b, p.Extends p' → q.Extends q' → R p q a b → R p' q' a b) :
    Follows p q (quiet f) (quiet g) R := by
  obtain ⟨strings, symbols, warnings⟩ := p
  obtain ⟨strings', symbols', warnings'⟩ := q
  intro hp hq a p' ha
  rw [run_quiet] at ha
  generalize hf : f.run.run ⟨strings, symbols, []⟩ = x at ha
  obtain ⟨_ | a, p''⟩ := x
  · cases ha
  cases ha
  obtain ⟨hok, hres⟩ := h ⟨strings, symbols, []⟩ ⟨strings', symbols', []⟩
    ⟨hp.strings, hp.symbols⟩ ⟨hq.strings, hq.symbols⟩ a p'' hf
  constructor
  · intro V hV hp' hqV
    obtain ⟨b, q'', hb⟩ :=
      hok V hV ⟨hp'.strings, hp'.symbols⟩ ⟨hqV.strings, hqV.symbols⟩
    exact ⟨b, ⟨q''.strings, q''.symbols, []⟩, by rw [run_quiet, hb]⟩
  · intro b q' hb
    rw [run_quiet] at hb
    generalize hg : g.run.run ⟨strings', symbols', []⟩ = y at hb
    obtain ⟨_ | b, q''⟩ := y
    · cases hb
    cases hb
    obtain ⟨ht, hr⟩ := hres b q'' hg
    refine ⟨⟨⟨ht.left.strings, ht.left.symbols⟩, ⟨ht.right.strings, ht.right.symbols⟩,
      ⟨ht.extendsLeft.strings, ht.extendsLeft.symbols⟩,
      ⟨ht.extendsRight.strings, ht.extendsRight.symbols⟩, fun V hqV hp' => ?_,
      fun V hpV hq' => ?_⟩, hR p'' q'' _ _ a b ⟨.refl _, .refl _⟩ ⟨.refl _, .refl _⟩ hr⟩
    · have := ht.within V ⟨hqV.strings, hqV.symbols⟩ ⟨hp'.strings, hp'.symbols⟩
      exact ⟨this.strings, this.symbols⟩
    · have := ht.back V ⟨hpV.strings, hpV.symbols⟩ ⟨hq'.strings, hq'.symbols⟩
      exact ⟨this.strings, this.symbols⟩

/-- Steps that follow one another, one after another. -/
theorem Follows.foldlM {step : α → γ → Lower α} {step' : β → γ → Lower β}
    (hi : ∀ a c, Interning (step a c)) {cs : List γ}
    (hstep : ∀ c ∈ cs, ∀ p q a b, R p q a b → Follows p q (step a c) (step' b c) R)
    {a : α} {b : β} (hab : R p q a b) : Follows p q (cs.foldlM step a) (cs.foldlM step' b) R := by
  induction cs generalizing p q a b with
  | nil => exact .pure hab
  | cons c cs ih =>
    rw [List.foldlM_cons, List.foldlM_cons]
    refine .bind (hstep c List.mem_cons_self p q a b hab) (Interning.foldlM hi cs) ?_
    exact fun p' q' a' b' _ _ hr => ih (fun c hc => hstep c (List.mem_cons_of_mem _ hc)) hr

end Lower

/-- What is found first by name in lists that are related is related. -/
theorem rel_find? {α β : Type} {R : α → β → Prop} {f : α → String} {g : β → String}
    (hname : ∀ a b, R a b → f a = g b) {as : List α} {bs : List β} (h : List.Forall₂ R as bs)
    (name : String) : Option.Rel R (as.find? (f · == name)) (bs.find? (g · == name)) := by
  induction h with
  | nil => exact .none
  | @cons a b _ _ hab _ ih =>
    rw [List.find?_cons, List.find?_cons, hname a b hab]
    cases g b == name with
    | true => exact .some hab
    | false => exact ih

/-! Entries that correspond. -/

/-- A relation of code that bodies lowered alike are in, and that lasts as pools grow. -/
structure Covers (C : Pool → Pool → Code → Code → Prop) : Prop where
  alike : ∀ {p q a b}, Code.Alike p q a b → C p q a b
  mono : ∀ {p q p' q' a b}, p.Extends p' → q.Extends q' → C p q a b → C p' q' a b

theorem covers_alike : Covers Code.Alike := ⟨id, fun hp hq h => h.mono hp hq⟩

section

variable (C : Pool → Pool → Code → Code → Prop) (p q : Pool)

structure FunctionEntry.Corresponds (e f : FunctionEntry) : Prop where
  name : e.name = f.name
  parameterCount : e.parameterCount = f.parameterCount
  code : C p q e.code f.code

structure MethodEntry.Corresponds (m n : MethodEntry) : Prop where
  symbol : m.symbol.Alike p q n.symbol
  code : C p q m.code n.code

structure ClassEntry.Corresponds (k l : ClassEntry) : Prop where
  name : k.name = l.name
  properties : List.Forall₂ (SymbolId.Alike p q) k.properties l.properties
  methods : List.Forall₂ (MethodEntry.Corresponds C p q) k.methods l.methods

end

section

variable {C : Pool → Pool → Code → Code → Prop} {p q p' q' : Pool}

theorem FunctionEntry.Corresponds.mono (hC : Covers C) (hp : p.Extends p') (hq : q.Extends q')
    {e f : FunctionEntry} (h : e.Corresponds C p q f) : e.Corresponds C p' q' f :=
  ⟨h.name, h.parameterCount, hC.mono hp hq h.code⟩

theorem MethodEntry.Corresponds.mono (hC : Covers C) (hp : p.Extends p') (hq : q.Extends q')
    {m n : MethodEntry} (h : m.Corresponds C p q n) : m.Corresponds C p' q' n :=
  ⟨h.symbol.mono hp hq, hC.mono hp hq h.code⟩

theorem ClassEntry.Corresponds.mono (hC : Covers C) (hp : p.Extends p') (hq : q.Extends q')
    {k l : ClassEntry} (h : k.Corresponds C p q l) : k.Corresponds C p' q' l :=
  ⟨h.name, h.properties.imp fun _ _ hs => hs.mono hp hq,
    h.methods.imp fun _ _ hm => hm.mono hC hp hq⟩

theorem SymbolId.Alike.symm {s t : SymbolId} (h : s.Alike p q t) : t.Alike q p s := by
  obtain ⟨name, hs, ht⟩ := h
  exact ⟨name, ht, hs⟩

theorem Covers.flip (h : Covers C) : Covers fun p q a b => C q p b a :=
  ⟨fun hab => h.alike hab.symm, fun hp hq hab => h.mono hq hp hab⟩

theorem ClassEntry.Corresponds.flip {k l : ClassEntry} (h : k.Corresponds C p q l) :
    l.Corresponds (fun p q a b => C q p b a) q p k where
  name := h.name.symm
  properties := List.Forall₂.flip (h.properties.imp fun _ _ hs => hs.symm)
  methods := List.Forall₂.flip (h.methods.imp fun _ _ hm => ⟨hm.symbol.symm, hm.code⟩)

/-! Symbols stand for their names, so tests for equal symbols come out the same. -/

theorem SymbolId.Alike.eq_iff (hp : p.Sound) (hq : q.Sound) {s s' t t' : SymbolId}
    (h : s.Alike p q t) (h' : s'.Alike p q t') : s = s' ↔ t = t' := by
  obtain ⟨name, hs, ht⟩ := h
  obtain ⟨name', hs', ht'⟩ := h'
  constructor
  · rintro rfl
    cases hs.symm.trans hs'
    exact congrArg SymbolId.mk (hq.symbols.get?_inj ht ht')
  · rintro rfl
    cases ht.symm.trans ht'
    exact congrArg SymbolId.mk (hp.symbols.get?_inj hs hs')

theorem ClassEntry.Corresponds.hasProperty_eq (hp : p.Sound) (hq : q.Sound) {k l : ClassEntry}
    (h : k.Corresponds C p q l) {s t : SymbolId} (hst : s.Alike p q t) :
    k.hasProperty s = l.hasProperty t := by
  have hmem : s ∈ k.properties ↔ t ∈ l.properties := by
    have hall := h.properties
    generalize k.properties = ss, l.properties = ts at hall
    induction hall with
    | nil => simp
    | cons hhead _ ih =>
      rw [List.mem_cons, List.mem_cons]
      exact or_congr (hst.eq_iff hp hq hhead) ih
  rw [hasProperty, hasProperty, Bool.eq_iff_iff, List.contains_iff_mem, List.contains_iff_mem]
  exact hmem

theorem MethodEntry.Corresponds.putMethod (hp : p.Sound) (hq : q.Sound) {m n : MethodEntry}
    (h : m.Corresponds C p q n) {ms ns : List MethodEntry}
    (hall : List.Forall₂ (MethodEntry.Corresponds C p q) ms ns) :
    List.Forall₂ (MethodEntry.Corresponds C p q) (Session.putMethod m ms)
      (Session.putMethod n ns) := by
  induction hall with
  | nil => exact .cons h .nil
  | @cons m' n' ms ns hhead htail ih =>
    have hsame : m'.symbol = m.symbol ↔ n'.symbol = n.symbol :=
      hhead.symbol.eq_iff hp hq h.symbol
    unfold Session.putMethod
    by_cases heq : m'.symbol = m.symbol
    · rw [if_pos heq, if_pos (hsame.mp heq)]
      exact .cons h htail
    · rw [if_neg heq, if_neg (fun hn => heq (hsame.mpr hn))]
      exact .cons hhead ih

theorem Corresponds.inherited {ks ls : List ClassEntry}
    (h : List.Forall₂ (ClassEntry.Corresponds C p q) ks ls) (d : ClassDecl) :
    (inherited ks d).Corresponds C p q (inherited ls d) := by
  have hbase : Option.Rel (ClassEntry.Corresponds C p q)
      (d.base.bind fun b => ks.find? (·.name == b.text))
      (d.base.bind fun b => ls.find? (·.name == b.text)) := by
    cases d.base with
    | none => exact .none
    | some b => exact rel_find? (fun _ _ hkl => hkl.name) h b.text
  unfold Lss.inherited
  generalize (d.base.bind fun b => ks.find? (·.name == b.text)) = x,
    (d.base.bind fun b => ls.find? (·.name == b.text)) = y at hbase
  cases hbase with
  | none => exact ⟨rfl, .nil, .nil⟩
  | some hkl => exact ⟨rfl, hkl.properties, hkl.methods⟩

end

/-! The stages. -/

section

variable {C : Pool → Pool → Code → Code → Prop} {p q : Pool}

theorem symbol_quiet_follows (name : String) :
    Follows p q (quiet (Lower.symbol name)) (quiet (Lower.symbol name)) SymbolId.Alike :=
  .quiet (fun _ _ => .symbol name) fun _ _ _ _ _ _ hp hq h => h.mono hp hq

theorem body_quiet_follows {e f : Env} (h : e.Below f) (s : Subroutine) :
    Follows p q (quiet (lowerSubroutine e s)) (quiet (lowerSubroutine f s)) Code.Alike :=
  .quiet (fun _ _ => lowerSubroutine_follows h s) fun _ _ _ _ _ _ hp hq h => h.mono hp hq

theorem lowerFunctions_follows {e f : Env} (h : e.Below f) (fs : List Subroutine) :
    Follows p q (lowerFunctions e fs) (lowerFunctions f fs) fun p q =>
      List.Forall₂ (FunctionEntry.Corresponds Code.Alike p q) := by
  induction fs generalizing p q with
  | nil => exact .pure .nil
  | cons s fs ih =>
    rw [Session.lowerFunctions_cons, Session.lowerFunctions_cons]
    refine .bind (body_quiet_follows h s)
      (fun _ => (lowerFunctions_interning e fs).bind fun _ => .pure _) fun p q a b _ _ hab => ?_
    refine .bind ih (fun _ => .pure _) fun p' q' es es' hp hq hes => .pure (.cons ?_ hes)
    exact ⟨rfl, rfl, hab.mono hp hq⟩

theorem lowerProperty_follows (hC : Covers C) {k l : ClassEntry} (hkl : k.Corresponds C p q l)
    (t : Token) :
    Follows p q (lowerProperty k t) (lowerProperty l t) (ClassEntry.Corresponds C) := by
  unfold lowerProperty
  refine .bind (symbol_quiet_follows t.text) (fun _ => .pure _) fun p' q' s s' hp hq hs => ?_
  refine .of_sound fun hp' hq' => .pure ?_
  have hkl : k.Corresponds C p' q' l := hkl.mono hC hp hq
  rw [hkl.hasProperty_eq hp' hq' hs]
  cases l.hasProperty s' with
  | true => exact hkl
  | false => exact ⟨hkl.name, List.rel_append hkl.properties (.cons hs .nil), hkl.methods⟩

theorem lowerMethod_follows (hC : Covers C) {e f : Env} (h : e.Below f) {k l : ClassEntry}
    (hkl : k.Corresponds C p q l) (m : Subroutine) :
    Follows p q (lowerMethod e k m) (lowerMethod f l m) (ClassEntry.Corresponds C) := by
  unfold lowerMethod
  refine .bind (symbol_quiet_follows m.name.text)
    (fun _ => (lowerSubroutine_interning m).quiet.bind fun _ => .pure _)
    fun p q s s' hp hq hs => ?_
  have hkl : k.Corresponds C p q l := hkl.mono hC hp hq
  refine .bind (body_quiet_follows h m) (fun _ => .pure _) fun p' q' a b hp hq hab => ?_
  refine .of_sound fun hp' hq' => .pure ?_
  have hkl : k.Corresponds C p' q' l := hkl.mono hC hp hq
  have hentry : MethodEntry.Corresponds C p' q' ⟨s, a⟩ ⟨s', b⟩ := ⟨hs.mono hp hq, hC.alike hab⟩
  exact ⟨hkl.name, hkl.properties, hentry.putMethod hp' hq' hkl.methods⟩

theorem Declared.Below.env {d e : Declared} (h : d.Below e) :
    ({ d with } : Env).Below { e with } := ⟨h, .none⟩

/-- A class that is declared in both environments. -/
theorem Declared.Below.envOf {e f : Declared} (h : e.Below f) {d : ClassDecl}
    (hd : e.classes[d.name.text]?.isSome) : (Session.envOf e d).Below (Session.envOf f d) := by
  obtain ⟨l, hl⟩ := Option.isSome_iff_exists.mp hd
  obtain ⟨m, hm, hlm⟩ := h.classes _ l hl
  refine ⟨h, ?_⟩
  show Option.Rel ClassLayout.Alike e.classes[d.name.text]? f.classes[d.name.text]?
  rw [hl, hm]
  exact .some hlm

theorem lowerClass_follows (hC : Covers C) {e f : Declared} (h : e.Below f) {d : ClassDecl}
    (hd : e.classes[d.name.text]?.isSome) {ks ls : List ClassEntry}
    (hkls : List.Forall₂ (ClassEntry.Corresponds C p q) ks ls) :
    Follows p q (lowerClass e ks d) (lowerClass f ls d) fun p q =>
      List.Forall₂ (ClassEntry.Corresponds C p q) := by
  have hmethod := lowerMethod_interning (Session.envOf e d)
  unfold lowerClass
  refine .bind (.foldlM (R := ClassEntry.Corresponds C) lowerProperty_interning
    (fun t _ _ _ _ _ hkl => lowerProperty_follows hC hkl t) (Corresponds.inherited hkls d))
    (fun _ => (Interning.foldlM hmethod _ _).bind fun _ => .pure _) fun p q k l hp hq hkl => ?_
  have hkls := hkls.imp fun _ _ hkl => hkl.mono hC hp hq
  refine .bind (.foldlM (R := ClassEntry.Corresponds C) hmethod
    (fun m _ _ _ _ _ hkl => lowerMethod_follows hC (h.envOf hd) hkl m) hkl) (fun _ => .pure _)
    fun p' q' k l hp hq hkl => .pure ?_
  exact List.rel_append (hkls.imp fun _ _ hkl => hkl.mono hC hp hq) (.cons hkl .nil)

theorem lowerClasses_follows (hC : Covers C) {e f : Declared} (h : e.Below f)
    {ds : List ClassDecl} (hds : ∀ d ∈ ds, e.classes[d.name.text]?.isSome)
    {ks ls : List ClassEntry} (hkls : List.Forall₂ (ClassEntry.Corresponds C p q) ks ls) :
    Follows p q (lowerClasses e ks ds) (lowerClasses f ls ds) fun p q =>
      List.Forall₂ (ClassEntry.Corresponds C p q) :=
  .foldlM (lowerClass_interning e)
    (fun d hd _ _ _ _ hkls => lowerClass_follows hC h (hds d hd) hkls) hkls

end

end Lss
