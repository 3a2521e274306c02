import Lss.Proofs.Joined
import Lss.Proofs.MarkedBody

/-!
# Compilation with and without line numbers

The containers that units give with the option to mark lines and without it are the same but for
the marks: branches and calls lead over them to the same instructions and functions.
-/
namespace Lss

open Lower

namespace Lower

variable {α β γ : Type} {f : Lower α} {g : Lower β} {R : α → β → Prop}

theorem Twins.quiet (h : Twins f g R) : Twins (quiet f) (quiet g) R := by
  intro p a b q r ha hb
  rw [run_quiet] at ha hb
  generalize hf : f.run.run ⟨p.strings, p.symbols, []⟩ = x at ha
  generalize hg : g.run.run ⟨p.strings, p.symbols, []⟩ = y at hb
  obtain ⟨_ | a', q'⟩ := x
  · cases ha
  obtain ⟨_ | b', r'⟩ := y
  · cases hb
  cases ha
  cases hb
  obtain ⟨rfl, hab⟩ := h _ _ _ _ _ hf hg
  exact ⟨rfl, hab⟩

theorem Twins.foldlM {step : α → γ → Lower α} {step' : β → γ → Lower β}
    (hstep : ∀ c a b, R a b → Twins (step a c) (step' b c) R) (cs : List γ) {a : α} {b : β}
    (hab : R a b) : Twins (cs.foldlM step a) (cs.foldlM step' b) R := by
  induction cs generalizing a b with
  | nil => exact .pure hab
  | cons c cs ih =>
    rw [List.foldlM_cons, List.foldlM_cons]
    exact .bind (hstep c a b hab) fun a' b' h => ih h

end Lower

theorem rel_map_of_mem {α β γ δ : Type} {R : α → β → Prop} {S : γ → δ → Prop} {f : α → γ}
    {g : β → δ} {as : List α} {bs : List β} (h : List.Forall₂ R as bs)
    (hS : ∀ a ∈ as, ∀ b ∈ bs, R a b → S (f a) (g b)) :
    List.Forall₂ S (as.map f) (bs.map g) := by
  induction h with
  | nil => exact .nil
  | cons hab _ ih =>
    rw [List.forall_mem_cons] at hS
    exact .cons (hS.1 _ List.mem_cons_self hab)
      (ih fun a ha b hb => hS.2 a ha b (List.mem_cons_of_mem _ hb))

/-! Entries with the same data but for their code. -/

section

variable (R : Code → Code → Prop)

structure FunctionEntry.Beside (e f : FunctionEntry) : Prop where
  name : e.name = f.name
  parameterCount : e.parameterCount = f.parameterCount
  code : R e.code f.code

structure MethodEntry.Beside (m n : MethodEntry) : Prop where
  symbol : m.symbol = n.symbol
  code : R m.code n.code

structure ClassEntry.Beside (k l : ClassEntry) : Prop where
  name : k.name = l.name
  properties : k.properties = l.properties
  methods : List.Forall₂ (MethodEntry.Beside R) k.methods l.methods

end

section

variable {R : Code → Code → Prop}

theorem MethodEntry.Beside.putMethod {m n : MethodEntry} (h : m.Beside R n)
    {ms ns : List MethodEntry} (hall : List.Forall₂ (MethodEntry.Beside R) ms ns) :
    List.Forall₂ (MethodEntry.Beside R) (Session.putMethod m ms) (Session.putMethod n ns) := by
  induction hall with
  | nil => exact .cons h .nil
  | @cons m' n' ms ns hhead htail ih =>
    unfold Session.putMethod
    rw [hhead.symbol, h.symbol]
    by_cases heq : n'.symbol = n.symbol
    · rw [if_pos heq, if_pos heq]
      exact .cons h htail
    · rw [if_neg heq, if_neg heq]
      exact .cons hhead ih

theorem Beside.inherited {ks ls : List ClassEntry}
    (h : List.Forall₂ (ClassEntry.Beside R) ks ls) (d : ClassDecl) :
    (inherited ks d).Beside R (inherited ls d) := by
  have hbase : Option.Rel (ClassEntry.Beside R)
      (d.base.bind fun b => ks.find? (·.name == b.text))
      (d.base.bind fun b => ls.find? (·.name == b.text)) := by
    cases d.base with
    | none => exact .none
    | some b => exact rel_find? (fun _ _ hkl => hkl.name) h b.text
  unfold Lss.inherited
  generalize (d.base.bind fun b => ks.find? (·.name == b.text)) = x,
    (d.base.bind fun b => ls.find? (·.name == b.text)) = y at hbase
  cases hbase with
  | none => exact ⟨rfl, rfl, .nil⟩
  | some hkl => exact ⟨rfl, hkl.properties, hkl.methods⟩

end

/-! The stages. -/

section

variable {env : Env} {k l : ClassEntry}

theorem symbol_twins (name : String) :
    Twins (quiet (Lower.symbol name)) (quiet (Lower.symbol name)) Eq :=
  .quiet ((Twins.same (.any _)).imp fun _ _ h => h.1)

theorem lowerFunctions_twins (env : Env) (fs : List Subroutine) :
    Twins (lowerFunctions env.unmarked fs) (lowerFunctions env fs)
      (List.Forall₂ (FunctionEntry.Beside Code.Twinned)) := by
  induction fs with
  | nil => exact .pure .nil
  | cons f fs ih =>
    rw [Session.lowerFunctions_cons, Session.lowerFunctions_cons]
    refine .bind (lowerSubroutine_twins env f).quiet fun a b hab => ?_
    exact .bind ih fun es es' hes => .pure (.cons ⟨rfl, rfl, hab⟩ hes)

theorem lowerProperty_twins (h : k.Beside Code.Twinned l) (t : Token) :
    Twins (lowerProperty k t) (lowerProperty l t) (ClassEntry.Beside Code.Twinned) := by
  unfold lowerProperty
  refine .bind (symbol_twins t.text) ?_
  rintro s _ rfl
  have hhas : k.hasProperty s = l.hasProperty s := by
    rw [ClassEntry.hasProperty, ClassEntry.hasProperty, h.properties]
  rw [hhas, h.properties]
  cases l.hasProperty s with
  | true => exact .pure h
  | false => exact .pure ⟨h.name, rfl, h.methods⟩

theorem lowerMethod_twins (env : Env) (h : k.Beside Code.Twinned l) (m : Subroutine) :
    Twins (lowerMethod env.unmarked k m) (lowerMethod env l m)
      (ClassEntry.Beside Code.Twinned) := by
  unfold lowerMethod
  refine .bind (symbol_twins m.name.text) ?_
  rintro s _ rfl
  refine .bind (lowerSubroutine_twins env m).quiet fun a b hab => .pure ?_
  have hentry : MethodEntry.Beside Code.Twinned ⟨s, a⟩ ⟨s, b⟩ := ⟨rfl, hab⟩
  exact ⟨h.name, h.properties, hentry.putMethod h.methods⟩

def Declared.unmarked (d : Declared) : Declared := { d with lineNumbers := false }

theorem lowerClass_twins (declared : Declared) {ks ls : List ClassEntry}
    (h : List.Forall₂ (ClassEntry.Beside Code.Twinned) ks ls) (d : ClassDecl) :
    Twins (lowerClass declared.unmarked ks d) (lowerClass declared ls d)
      (List.Forall₂ (ClassEntry.Beside Code.Twinned)) := by
  unfold lowerClass
  refine .bind (.foldlM (R := ClassEntry.Beside Code.Twinned)
    (fun t _ _ h => lowerProperty_twins h t) d.properties (Beside.inherited h d)) fun k l hkl => ?_
  refine .bind (.foldlM (R := ClassEntry.Beside Code.Twinned)
    (fun m _ _ h => lowerMethod_twins (Session.envOf declared d) h m) d.methods hkl)
    fun k l hkl => .pure ?_
  exact List.rel_append h (.cons hkl .nil)

theorem lowerClasses_twins (declared : Declared) (ds : List ClassDecl) {ks ls : List ClassEntry}
    (h : List.Forall₂ (ClassEntry.Beside Code.Twinned) ks ls) :
    Twins (lowerClasses declared.unmarked ks ds) (lowerClasses declared ls ds)
      (List.Forall₂ (ClassEntry.Beside Code.Twinned)) :=
  .foldlM (fun d _ _ h => lowerClass_twins declared h d) ds h

end

namespace Container

def SameFunction (c d : Container) (t u : UInt32) : Prop :=
  ∃ k : Nat, c.functionOffsets[k]? = some t.toNat ∧ d.functionOffsets[k]? = some u.toNat

structure Unmarks (c d : Container) : Prop where
  major : c.major = d.major
  minor : c.minor = d.minor
  strings : c.strings = d.strings
  symbols : c.symbols = d.symbols
  globals : c.globals = d.globals
  functions : List.Forall₂ (FunctionEntry.Beside (Code.Unmarks (c.SameFunction d))) c.functions
    d.functions
  classes : List.Forall₂ (ClassEntry.Beside (Code.Unmarks (c.SameFunction d))) c.classes d.classes

section

variable {settings : Settings} {units : List SourceUnit} {c d : Container} {globals : NameTable}
  {es fs : List FunctionEntry} {ks ls : List ClassEntry} {p q : Pool}

/-- Where linking sends a name that both containers know is where they have one function. -/
theorem sameFunction_placeIn {place place' : String → UInt32}
    (hnames : c.functions.map (·.name) = d.functions.map (·.name))
    (hnodup : (c.functions.map (·.name)).Nodup) {f : String} (hc : c.targets[f]?.isSome)
    (hd : d.targets[f]?.isSome) :
    (c.linked place).SameFunction (d.linked place') (Code.placeIn c.targets f)
      (Code.placeIn d.targets f) := by
  obtain ⟨k, e, hk, hname, hplace⟩ := target_spec hc
  obtain ⟨k', e', hk', hname', hplace'⟩ := target_spec hd
  have hat : (c.functions.map (·.name))[k]? = some f := by
    rw [List.getElem?_map, hk, ← hname]
    rfl
  have hat' : (c.functions.map (·.name))[k']? = some f := by
    rw [hnames, List.getElem?_map, hk', ← hname']
    rfl
  -- the names are apart, so there is one place for each
  obtain rfl : k = k' :=
    (List.getElem?_inj (List.getElem?_eq_some_iff.mp hat).1 hnodup).mp (hat.trans hat'.symm)
  have hoffset {c : Container} {place : String → UInt32} {e : FunctionEntry}
      (hk : c.functions[k]? = some e) :
      (c.linked place).functionOffsets[k]? = some (wrap (c.before k)) := by
    have hlt : k < (c.linked place).functions.length := by
      rw [linked, List.length_map]
      exact (List.getElem?_eq_some_iff.mp hk).1
    rw [functionOffsets_eq, List.getElem?_map, List.getElem?_range hlt, Option.map_some,
      before_linked]
  refine ⟨k, ?_, ?_⟩
  · rw [hoffset hk, hplace]
  · rw [hoffset hk', hplace']

/-- Code that can be linked on both sides, once it is. -/
theorem unmarks_of_twinned (hnames : c.functions.map (·.name) = d.functions.map (·.name))
    (hnodup : (c.functions.map (·.name)).Nodup) {a b : Code} (hab : Code.Twinned a b)
    (ha : a.Linkable c.targets) (hb : b.Linkable d.targets) {place place' : String → UInt32} :
    Code.Unmarks ((c.linked place).SameFunction (d.linked place'))
      (a.linked (Code.placeIn c.targets)) (b.linked (Code.placeIn d.targets)) := by
  have hrows : Code.Rows a b [] [] a b := hab [] [] rfl
  refine hrows.unmarks fun f argc hmem => ?_
  exact sameFunction_placeIn hnames hnodup (ha f argc hmem)
    (hb f argc (hrows.mem_unresolvedCall hmem))

end

/-- Units that compile with line numbers and without them give the same container, but for the line
numbers and for how far branches and calls lead. -/
theorem compile_unmarks (settings : Settings) (units : List SourceUnit)
    (hc : ((ofSettings settings).compile { settings with lineNumbers := false } units).container =
      some c)
    (hd : ((ofSettings settings).compile { settings with lineNumbers := true } units).container =
      some d) : c.Unmarks d := by
  obtain ⟨globals, es, ks, p, q, h, hlink, rfl⟩ := compile_iff_lowers.mp hc
  obtain ⟨globals', fs, ls, p', q', h', hlink', rfl⟩ := compile_iff_lowers.mp hd
  obtain rfl : globals = globals' :=
    Option.some.inj (h.registers.globals.symm.trans h'.registers.globals)
  let declared :=
    (ofSettings settings).declaredBy { settings with lineNumbers := true } units globals
  obtain ⟨rfl, hes⟩ := lowerFunctions_twins { declared with } (newFunctions units) _ _ _ _ _
    h.functions h'.functions
  obtain ⟨rfl, hks⟩ := lowerClasses_twins declared ((ofSettings settings).orderedClasses units)
    List.Forall₂.nil _ _ _ _ _ h.classes h'.classes
  have hnames := map_eq_of_rel hes fun _ _ hef => hef.name
  have hnodup : (es.map (·.name)).Nodup := by
    have := congrArg (List.map Prod.fst) (map_lowerFunctions h.functions)
    rw [List.map_map, List.map_map] at this
    have hregistered := h.registers.functions
    rwa [show es.map (·.name) = (newFunctions units).map (·.name.text) from this]
  refine ⟨rfl, rfl, rfl, rfl, rfl, ?_, ?_⟩
  · refine rel_map_of_mem hes fun e he f hf hef => ⟨hef.name, hef.parameterCount, ?_⟩
    exact unmarks_of_twinned hnames hnodup hef.code (hlink.functions e he) (hlink'.functions f hf)
  · refine rel_map_of_mem hks fun k hk l hl hkl => ⟨hkl.name, hkl.properties, ?_⟩
    refine rel_map_of_mem hkl.methods fun m hm n hn hmn => ⟨hmn.symbol, ?_⟩
    exact unmarks_of_twinned hnames hnodup hmn.code (hlink.classes k hk m hm)
      (hlink'.classes l hl n hn)

def walked : SourceUnit where
  functions := [⟨.identifier "walk", [.identifier "n"],
      ⟨[.if_ (some (.name "n"))
        (.expr (.call (.name "step") [.name "n"] { line := 2 }))
        (some (.while_ (.name "n") (.return_ none { line := 4 }))) { line := 1 }], .synthetic⟩⟩,
    ⟨.identifier "step", [.identifier "n"],
      ⟨[.return_ (some (.name "n")) { line := 6 }], .synthetic⟩⟩]

theorem compile_unmarks_walked : ∃ c d : Container,
    ((ofSettings {}).compile { lineNumbers := false } [walked]).container = some c ∧
      ((ofSettings {}).compile { lineNumbers := true } [walked]).container = some d ∧
      c.functions.map (·.code.length) = [13, 2] ∧ d.functions.map (·.code.length) = [17, 3] ∧
      c.Unmarks d := by
  have hplain : ((ofSettings {}).compile { lineNumbers := false } [walked]).container.any
      fun c => c.functions.map (·.code.length) == [13, 2] := by
    decide +kernel
  have hmarked : ((ofSettings {}).compile { lineNumbers := true } [walked]).container.any
      fun d => d.functions.map (·.code.length) == [17, 3] := by
    decide +kernel
  obtain ⟨c, hc, hlengths⟩ := (Option.any_eq_true _ _).mp hplain
  obtain ⟨d, hd, hlengths'⟩ := (Option.any_eq_true _ _).mp hmarked
  exact ⟨c, d, hc, hd, eq_of_beq hlengths, eq_of_beq hlengths',
    compile_unmarks {} [walked] hc hd⟩

end Container

end Lss
