import Lss.Proofs.Echoed
import Lss.Proofs.Flattened
import Lss.Proofs.Relinked

/-!
# Errors body by body

Compilation looks at every body, whatever is wrong with the others. As long as all names find room,
what it says of a body is what lowering that body alone comes to: the errors of the declarations
come first, and behind them stands at most one error for each body.
-/
namespace Lss

open Lower

def Subroutine.error? (env : Env) (s : Subroutine) : Option CompileError :=
  match (lowerSubroutine env s).run.run ⟨.empty, .empty, []⟩ with
  | (.ok _, _) => none
  | (.error e, _) => some e

structure Visit where
  env : Env
  subroutine : Subroutine
  /-- A method whose name its class has used before. Its body is not looked at. -/
  repeated : Bool

def Visit.error? (v : Visit) : Option CompileError :=
  if v.repeated then
    some (.duplicateFunction v.subroutine.name.text v.subroutine.name.span)
  else v.subroutine.error? v.env

/-- The methods of a class, one after another; `seen` holds the names of earlier ones. -/
def visitMethods (env : Env) (seen : List String) : List Subroutine → List Visit
  | [] => []
  | m :: ms =>
    if seen.contains m.name.text then ⟨env, m, true⟩ :: visitMethods env seen ms
    else ⟨env, m, false⟩ :: visitMethods env (m.name.text :: seen) ms

def Container.Outline.visits (o : Container.Outline) : List Visit :=
  o.functions.map (fun f => ⟨{ o.declared with }, f.1, false⟩) ++
    o.classes.flatMap fun d => visitMethods (Session.envOf o.declared d) [] d.methods

/-! Warnings are no errors. -/

namespace Lower

def Mild {α : Type} (f : Lower α) : Prop :=
  ∀ p : Pool, (∀ d ∈ p.warnings, d.isError = false) →
    ∀ d ∈ (f.run.run p).2.warnings, d.isError = false

theorem composes_mild : Composes fun f => Mild f where
  pure _ _ h := h
  throw _ _ h := h
  bind {α β f g} hf hg p h := by
    have hp := hf p h
    rw [run_bind]
    generalize f.run.run p = x at hp
    obtain ⟨e | a, q⟩ := x
    · exact hp
    · exact hg a q hp
  symbol name := by
    rintro ⟨strings, symbols, warnings⟩ h
    show ∀ d ∈ (Lower.symbol name ⟨strings, symbols, warnings⟩).2.warnings, _
    rcases hi : symbols.intern name with ⟨e | i, grown⟩ <;> simp only [Lower.symbol, hi] <;> exact h
  string value := by
    rintro ⟨strings, symbols, warnings⟩ h
    show ∀ d ∈ (Lower.string value ⟨strings, symbols, warnings⟩).2.warnings, _
    rcases hi : strings.intern value with ⟨e | i, grown⟩ <;> simp only [Lower.string, hi] <;>
      exact h
  warn type span p h := by
    intro d hd
    rcases List.mem_cons.mp hd with rfl | hd
    · rfl
    · exact h d hd

end Lower

/-! Sessions. -/

namespace Session

variable {s t u : Session} {es fs : List CompileError} {env : Env}

structure Reports (s t : Session) (es : List CompileError) : Prop where
  sound : s.pool.Sound → t.pool.Sound
  suffix : s.errors <:+ t.errors
  errors : s.pool.Sound → overflow ∉ t.errors → t.errors.reverse = s.errors.reverse ++ es
  mild : (∀ d ∈ s.warnings, d.isError = false) → ∀ d ∈ t.warnings, d.isError = false

theorem Reports.refl (s : Session) : Reports s s [] :=
  ⟨id, List.suffix_refl _, fun _ _ => (List.append_nil _).symm, id⟩

theorem Reports.trans (h : Reports s t es) (k : Reports t u fs) : Reports s u (es ++ fs) where
  sound hs := k.sound (h.sound hs)
  suffix := h.suffix.trans k.suffix
  errors hs hroom := by
    rw [k.errors (h.sound hs) hroom, h.errors hs fun hmem => hroom (k.suffix.mem hmem),
      List.append_assoc]
  mild hs := k.mild (h.mild hs)

/-- What is the same in both sessions for lowering is the same for reports. -/
theorem Reports.congr_right (h : Reports s t es) (hpool : u.pool = t.pool)
    (herrors : u.errors = t.errors) (hwarnings : u.warnings = t.warnings) : Reports s u es := by
  obtain ⟨hsound, hsuffix, hadds, hmild⟩ := h
  exact ⟨by rwa [hpool], by rwa [herrors], by rwa [herrors], by rwa [hwarnings]⟩

/-- The errors that a list of steps reports, one after another. -/
theorem foldl_reports {σ α : Type} (session : σ → Session) {step : σ → α → σ}
    (report : σ → α → List CompileError) (all : σ → List α → List CompileError)
    (hnil : ∀ x, all x [] = [])
    (hcons : ∀ x a l, all x (a :: l) = report x a ++ all (step x a) l)
    (hstep : ∀ x a, Reports (session x) (session (step x a)) (report x a)) (l : List α) (x : σ) :
    Reports (session x) (session (l.foldl step x)) (all x l) := by
  induction l generalizing x with
  | nil =>
    rw [hnil]
    exact .refl _
  | cons a l ih =>
    rw [hcons]
    exact (hstep x a).trans (ih _)

/-- A computation reports what it comes to from empty tables. -/
theorem run_reports {α : Type} {f : Lower α} {R : α → α → Prop} (hf : Echoes f f R)
    (hi : Interning f) (hm : Mild f) (s : Session) :
    Reports s (s.run f).2 (match f.run.run ⟨.empty, .empty, []⟩ with
      | (.ok _, _) => []
      | (.error e, _) => [e]) := by
  obtain ⟨⟨major, minor, strings, symbols, globals, functions, classes⟩, errors, warnings⟩ := s
  have hinterns := hi ⟨strings, symbols, []⟩
  have hmild := hm ⟨strings, symbols, []⟩ (by simp)
  have hsound (h : Pool.Sound ⟨strings, symbols, []⟩) := hinterns.sound h
  have hagree (h : Pool.Sound ⟨strings, symbols, []⟩) :=
    hf ⟨strings, symbols, []⟩ ⟨.empty, .empty, []⟩
      ⟨h, ⟨NameTable.sound_empty, NameTable.sound_empty⟩, ⟨by simp [NameTable.names,
        NameTable.toList, NameTable.empty], by simp [NameTable.names, NameTable.toList,
        NameTable.empty]⟩⟩
  unfold run
  dsimp only
  generalize f.run.run ⟨strings, symbols, []⟩ = x at hsound hmild hagree
  generalize f.run.run ⟨.empty, .empty, []⟩ = y at hagree
  obtain ⟨e | a, q⟩ := x
  · refine ⟨fun h => ⟨(hsound h).strings, (hsound h).symbols⟩, List.suffix_cons _ _,
      fun h hroom => ?_, id⟩
    have hagree := hagree h
    generalize hx : ((.error e, q) : Except CompileError α × Pool) = x at hagree
    cases hagree with
    | overflow =>
      cases hx
      exact absurd List.mem_cons_self hroom
    | error =>
      cases hx
      exact List.reverse_cons
    | ok => cases hx
  · refine ⟨fun h => ⟨(hsound h).strings, (hsound h).symbols⟩, List.suffix_refl _,
      fun h hroom => ?_, fun h d hd => (List.mem_append.mp hd).elim (hmild d) (h d)⟩
    have hagree := hagree h
    generalize hx : ((.ok a, q) : Except CompileError α × Pool) = x at hagree
    cases hagree with
    | overflow => cases hx
    | error => cases hx
    | ok => exact (List.append_nil _).symm

theorem run_body_reports (env : Env) (f : Subroutine) (s : Session) :
    Reports s (s.run (lowerSubroutine env f)).2 (f.error? env).toList := by
  have hmild : Mild (lowerSubroutine env f) := lowerSubroutine_composed composes_mild f
  have h := run_reports (lowerSubroutine_echoes f) (lowerSubroutine_interning f) hmild s
  unfold Subroutine.error?
  generalize (lowerSubroutine env f).run.run ⟨.empty, .empty, []⟩ = x at h
  obtain ⟨e | a, q⟩ := x <;> exact h

/-- A name that finds no room is the only thing to report. -/
theorem run_symbol_reports (name : String) (s : Session) :
    Reports s (s.run (Lower.symbol name)).2 [] :=
  run_reports (.symbol name) (.symbol name) (composes_mild.symbol name) s

theorem run_symbol_eq_none {name : String} (h : s.run (Lower.symbol name) = (none, t)) :
    overflow ∈ t.errors := by
  obtain ⟨⟨major, minor, strings, symbols, globals, functions, classes⟩, errors, warnings⟩ := s
  have hrun : (Lower.symbol name).run.run ⟨strings, symbols, []⟩ =
    Lower.symbol name ⟨strings, symbols, []⟩ := rfl
  simp only [run, hrun, Lower.symbol] at h
  rcases hi : symbols.intern name with ⟨e | i, grown⟩
  · rw [hi] at h
    cases h
    cases Echoes.intern_error hi
    exact List.mem_cons_self
  · rw [hi] at h
    cases h

theorem addFunction_reports (env : Env) (x : List FunctionEntry × Session)
    (b : Subroutine × UInt8) :
    Reports x.2 (addFunction env x b).2 (b.1.error? env).toList :=
  run_body_reports env b.1 x.2

theorem addProperty_reports (x : ClassEntry × Session) (t : Token) :
    Reports x.2 (addProperty x t).2 [] := by
  obtain ⟨entry, s⟩ := x
  have h := run_symbol_reports t.text s
  unfold addProperty
  dsimp only
  generalize s.run (Lower.symbol t.text) = r at h
  obtain ⟨_ | symbol, u⟩ := r <;> exact h

theorem addMethod_reports (env : Env) (d : ClassDraft) (m : Subroutine) :
    Reports d.session (addMethod env d m).session
      (Visit.error? ⟨env, m, d.seen.contains m.name.text⟩).toList := by
  obtain ⟨entry, seen, s⟩ := d
  unfold addMethod Visit.error?
  dsimp only
  by_cases hseen : seen.contains m.name.text
  · rw [if_pos hseen, if_pos hseen]
    exact ⟨id, List.suffix_cons _ _, fun _ _ => List.reverse_cons, id⟩
  · rw [if_neg hseen, if_neg hseen]
    have hname := run_symbol_reports m.name.text s
    rcases hr : s.run (Lower.symbol m.name.text) with ⟨_ | symbol, t⟩
    · rw [hr] at hname
      have hfull := run_symbol_eq_none hr
      exact ⟨hname.sound, hname.suffix, fun _ hroom => absurd hfull hroom, hname.mild⟩
    · rw [hr] at hname
      have hbody := hname.trans (run_body_reports env m t)
      dsimp only
      generalize t.run (lowerSubroutine env m) = r at hbody
      obtain ⟨_ | code, u⟩ := r <;> exact hbody

theorem addMethod_seen (env : Env) (d : ClassDraft) (m : Subroutine) :
    (addMethod env d m).seen =
      if d.seen.contains m.name.text then d.seen else m.name.text :: d.seen := by
  obtain ⟨entry, seen, s⟩ := d
  unfold addMethod
  dsimp only
  split
  · rfl
  · rcases s.run (Lower.symbol m.name.text) with ⟨_ | symbol, t⟩
    · rfl
    · dsimp only
      rcases t.run (lowerSubroutine env m) with ⟨_ | code, u⟩ <;> rfl

theorem foldl_addMethod_reports (env : Env) (ms : List Subroutine) (d : ClassDraft) :
    Reports d.session (ms.foldl (addMethod env) d).session
      ((visitMethods env d.seen ms).filterMap Visit.error?) := by
  refine foldl_reports ClassDraft.session
    (fun d m => (Visit.error? ⟨env, m, d.seen.contains m.name.text⟩).toList)
    (fun d ms => (visitMethods env d.seen ms).filterMap Visit.error?)
    (fun _ => rfl) (fun d m ms => ?_) (addMethod_reports env) ms d
  have hhead (v : Visit) (vs : List Visit) :
      (v :: vs).filterMap Visit.error? = v.error?.toList ++ vs.filterMap Visit.error? := by
    rw [List.filterMap_cons]
    cases v.error? <;> rfl
  rw [visitMethods, addMethod_seen]
  split
  · next hseen => rw [hhead, hseen]
  · next hseen => rw [hhead, Bool.eq_false_of_not_eq_true hseen]

theorem addClassEntry_reports (declared : Declared) (s : Session) (d : ClassDecl) :
    Reports s (addClassEntry declared s d)
      ((visitMethods (envOf declared d) [] d.methods).filterMap Visit.error?) := by
  have hproperties := foldl_reports (fun x : ClassEntry × Session => x.2)
    (fun _ _ => []) (fun _ _ => []) (fun _ => rfl) (fun _ _ _ => rfl)
    addProperty_reports d.properties (inherited s.container.classes d, s)
  have hmethods := foldl_addMethod_reports (envOf declared d) d.methods
    { entry := (d.properties.foldl addProperty (inherited s.container.classes d, s)).1
      session := (d.properties.foldl addProperty (inherited s.container.classes d, s)).2 }
  exact (hproperties.trans hmethods).congr_right rfl rfl rfl

/-- Globals have a table of their own. -/
theorem foldl_addGlobal_frame (names : List Token) (s : Session) :
    (names.foldl addGlobal s).pool = s.pool ∧ (names.foldl addGlobal s).warnings = s.warnings := by
  induction names generalizing s with
  | nil => exact ⟨rfl, rfl⟩
  | cons name names ih =>
    have hone : (addGlobal s name).pool = s.pool ∧ (addGlobal s name).warnings = s.warnings := by
      obtain ⟨⟨major, minor, strings, symbols, globals, functions, classes⟩, errors, warnings⟩ := s
      unfold addGlobal
      dsimp only
      rcases globals.intern name.text with ⟨e | i, grown⟩ <;> exact ⟨rfl, rfl⟩
    exact ⟨(ih _).1.trans hone.1, (ih _).2.trans hone.2⟩

end Session

namespace Container

/-- The bodies add one error each at most to what the declarations have. -/
theorem Outline.run_reports (o : Outline) :
    Session.Reports o.start o.run.2 (o.visits.filterMap Visit.error?) := by
  have hfunctions := Session.foldl_reports
    (fun x : List FunctionEntry × Session => x.2)
    (fun _ f => (f.1.error? { o.declared with }).toList)
    (fun _ fs => fs.flatMap fun f => (f.1.error? { o.declared with }).toList)
    (fun _ => rfl) (fun _ _ _ => List.flatMap_cons)
    (Session.addFunction_reports { o.declared with }) o.functions ([], o.start)
  have hclasses := Session.foldl_reports id
    (fun _ d =>
      (visitMethods (Session.envOf o.declared d) [] d.methods).filterMap Visit.error?)
    (fun _ ds => ds.flatMap fun d =>
      (visitMethods (Session.envOf o.declared d) [] d.methods).filterMap Visit.error?)
    (fun _ => rfl) (fun _ _ _ => List.flatMap_cons)
    (Session.addClassEntry_reports o.declared) o.classes
    (o.functions.foldl (Session.addFunction { o.declared with }) ([], o.start)).2
  have hsplit : o.visits.filterMap Visit.error? =
      (o.functions.flatMap fun f => (f.1.error? { o.declared with }).toList) ++
        o.classes.flatMap fun d =>
          (visitMethods (Session.envOf o.declared d) [] d.methods).filterMap Visit.error? := by
    rw [Outline.visits, List.filterMap_append, List.filterMap_map, List.filterMap_flatMap,
      List.filterMap_eq_flatMap_toList]
    rfl
  rw [hsplit]
  exact hfunctions.trans hclasses

end Container

/-! Linking. -/

section

variable {targets : Std.TreeMap String Nat} {c : Container} {sources units : List SourceUnit}
  {s : Subroutine} {code : Code} {isMethod : Bool}

theorem LoweredInto.linkable {q : Pool} {env : Env} (hg : env.globals.Exact)
    (h : LoweredInto q env s code)
    (ht : ∀ (f : String) (argc : UInt8), env.functions[f]? = some argc → targets[f]?.isSome) :
    code.Linkable targets := by
  obtain ⟨_, _, _, -, -, -, hall⟩ := (h.body hg).forall_mem
    (Q := fun _ i => ∀ (f : String) (argc : UInt8), i = .unresolvedCall f argc →
      targets[f]?.isSome)
    (fun n i _ hfits f argc hi => by
      subst hi
      exact ht f argc hfits)
    (fun n i hpassive f argc hi => by
      subst hi
      exact absurd rfl hpassive)
  exact fun f argc hmem => hall _ hmem f argc rfl

theorem Compiled.linkable (h : Compiled c isMethod s code) : code.Linkable targets := by
  rw [← h.linked_eq (Code.placeIn targets)]
  exact Code.linkable_linked _ _

/-- Only functions that are there are called by name. -/
theorem Container.Adds.linkable {declared : Declared} {new : List FunctionEntry} {t : Session}
    (hc : c.Holds sources) (h : c.Adds sources units declared new t) :
    (t.container.withFunctions (c.functions ++ new)).Linkable := by
  have htargets (f : String) (argc : UInt8) (hf : declared.functions[f]? = some argc) :
      (t.container.withFunctions (c.functions ++ new)).targets[f]?.isSome := by
    obtain ⟨e, he, rfl, -⟩ := h.mem_of_known hf
    exact isSome_targets (c := t.container.withFunctions (c.functions ++ new)) he
  constructor
  · intro e he
    rcases List.mem_append.mp he with he | he
    · obtain ⟨f, -, hbears⟩ := hc.exists_bears he
      exact hbears.code.linkable
    · obtain ⟨i, hi, rfl⟩ := List.mem_iff_getElem.mp he
      have hlowered := (h.functions.get (h.functions.length_eq ▸ hi) hi).2.2
      exact LoweredInto.linkable h.exact hlowered htargets
  · intro k hk e he
    obtain ⟨m, hbears⟩ := (h.classes k hk).methods e he
    rcases hbears.code with hold | ⟨d, -, -, -, hlowered⟩
    · exact hold.2.linkable
    · exact LoweredInto.linkable h.exact hlowered htargets

/-- A session without errors links. -/
theorem Container.Grown.links (h : Grown sources c) (settings : Settings)
    (units : List SourceUnit)
    (herr : (c.outline settings units).run.2.errors = []) :
    ∃ linked, ((c.outline settings units).run.2.container.withFunctions
      (c.functions ++ (c.outline settings units).run.1.reverse)).link = .ok linked := by
  obtain ⟨declared, new, t, hadds, hrun⟩ := outline_adds h.holds herr
  rw [hrun, List.reverse_reverse]
  exact succeeds_link.mpr (hadds.linkable h.holds)

end

end Lss
