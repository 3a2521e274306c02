import Lss.Proofs.Ordered
import Lss.Proofs.Placeless
import Lss.Proofs.Staged

/-!
# Units that declare the same

What compilation makes of units depends on what they declare, up to places and in this order, and
not on how it is spread over them.
-/
namespace Lss

open Lower

theorem map_of_bare {α β : Type} {f : α → α} {q : α → β} {as bs : List α}
    (h : as.map f = bs.map f) (hq : ∀ a, q (f a) = q a) : as.map q = bs.map q := by
  have h := congrArg (List.map q) h
  simpa only [List.map_map, Function.comp_def, hq] using h

theorem forall_of_map_eq {α β : Type} {q : α → β} {as bs : List α} (h : as.map q = bs.map q)
    {P : β → Prop} (hP : ∀ a ∈ as, P (q a)) : ∀ b ∈ bs, P (q b) := by
  rw [← List.forall_mem_map, ← h, List.forall_mem_map]
  exact hP

/-! The order of classes. -/

namespace ClassOrder

variable {classes : List ClassDecl} {c : Container} {i : Nat}

inductive Ending.Like : Ending → Ending → Prop
  | sound : Like .sound .sound
  | broken {e e' : Option CompileError} : e.isSome = e'.isSome → Like (.broken e) (.broken e')

structure Progress.Like (done done' : Progress) : Prop where
  waiting : done.waiting = done'.waiting
  ordered : done.ordered = done'.ordered
  broken : done.broken = done'.broken
  errors : done.errors.length = done'.errors.length

theorem places_bare (classes : List ClassDecl) :
    places (classes.map ClassDeclOf.bare) = places classes := by
  unfold places
  rw [List.length_map, List.zip_map_left, List.foldl_map]
  rfl

theorem walk_bare (byName : Std.TreeMap String Nat) {done done' : Progress}
    (hdone : done.Like done') (path waiting : List Nat) (i : Nat) :
    ∃ r r' : Ending, r.Like r' ∧ ∃ path' waiting',
      walk classes.toArray byName c done path waiting i = (path', waiting', r) ∧
      walk (classes.map ClassDeclOf.bare).toArray byName c done' path waiting i =
        (path', waiting', r') := by
  have hbase (i : Nat) : (classes.map ClassDeclOf.bare).toArray[i]?.bind (·.base) =
      (classes.toArray[i]?.bind (·.base)).map Token.bare := by
    rw [List.getElem?_toArray, List.getElem?_toArray, List.getElem?_map]
    cases classes[i]? <;> rfl
  fun_induction walk classes.toArray byName c done path waiting i with
  | case1 path waiting i hmem _ hnone =>
    refine ⟨_, _, .sound, _, _, rfl, ?_⟩
    rw [walk_of_mem hmem, hbase, hnone]
    rfl
  | case2 path waiting i hmem _ base hsome j hj ih =>
    obtain ⟨r, r', hr, path', waiting', hwalk, hwalk'⟩ := ih
    refine ⟨r, r', hr, path', waiting', hwalk, ?_⟩
    rw [walk_of_mem hmem, hbase, hsome, Option.map_some]
    dsimp only
    rw [show base.bare.text = base.text from rfl, hj]
    exact hwalk'
  | case3 path waiting i hmem _ base hsome hj hex =>
    refine ⟨_, _, .sound, _, _, rfl, ?_⟩
    rw [walk_of_mem hmem, hbase, hsome, Option.map_some]
    dsimp only
    rw [show base.bare.text = base.text from rfl, hj]
    exact if_pos hex
  | case4 path waiting i hmem _ base hsome hj hex =>
    refine ⟨.broken (some (.undefinedClass base.text base.span)),
      .broken (some (.undefinedClass base.text .synthetic)), .broken rfl, _, _, rfl, ?_⟩
    rw [walk_of_mem hmem, hbase, hsome, Option.map_some]
    dsimp only
    rw [show base.bare.text = base.text from rfl, hj]
    exact if_neg hex
  | case5 path waiting i hmem hord =>
    refine ⟨_, _, .sound, _, _, rfl, ?_⟩
    rw [walk, dif_neg hmem, ← hdone.ordered, if_pos hord]
  | case6 path waiting i hmem hord hbroken =>
    refine ⟨_, .broken none, .broken rfl, _, _, rfl, ?_⟩
    rw [walk, dif_neg hmem, ← hdone.ordered, if_neg hord, ← hdone.broken, if_pos hbroken]
  | case7 path waiting i hmem hord hbroken =>
    refine ⟨_, .broken ((classes.map ClassDeclOf.bare).toArray[i]?.map fun d =>
      .inheritanceCycle d.name.text d.name.span), .broken ?_, _, _, rfl, ?_⟩
    · rw [List.getElem?_toArray, List.getElem?_toArray, List.getElem?_map]
      cases classes[i]? <;> rfl
    · rw [walk, dif_neg hmem, ← hdone.ordered, if_neg hord, ← hdone.broken, if_neg hbroken]

theorem visit_bare (byName : Std.TreeMap String Nat) {done done' : Progress}
    (hdone : done.Like done') (i : Nat) :
    (visit classes.toArray byName c done i).Like
      (visit (classes.map ClassDeclOf.bare).toArray byName c done' i) := by
  obtain ⟨r, r', hr, path, waiting, hwalk, hwalk'⟩ :=
    @walk_bare classes c byName _ _ hdone [] done.waiting i
  unfold visit
  rw [← hdone.waiting, hwalk, hwalk']
  cases hr with
  | sound => exact ⟨rfl, congrArg (path.reverse ++ ·) hdone.ordered, hdone.broken, hdone.errors⟩
  | @broken e e' he =>
    refine ⟨rfl, hdone.ordered, congrArg (path ++ ·) hdone.broken, ?_⟩
    dsimp only
    rw [List.length_append, List.length_append, hdone.errors]
    cases e <;> cases e' <;> first | rfl | cases he

end ClassOrder

open ClassOrder

theorem orderClasses_bare (classes : List ClassDecl) (c : Container) :
    (orderClasses (classes.map ClassDeclOf.bare) c).1 = (orderClasses classes c).1 ∧
      ((orderClasses (classes.map ClassDeclOf.bare) c).2 = [] ↔
        (orderClasses classes c).2 = []) := by
  have hfold (is : List Nat) {done done' : Progress} (hdone : done.Like done') :
      (is.foldl (visit classes.toArray (places classes) c) done).Like
        (is.foldl (visit (classes.map ClassDeclOf.bare).toArray (places classes) c) done') := by
    induction is generalizing done done' with
    | nil => exact hdone
    | cons i is ih => exact ih (visit_bare _ hdone i)
  have hstart : Progress.Like { waiting := List.range classes.length } _ := ⟨rfl, rfl, rfl, rfl⟩
  have h := hfold (List.range classes.length) hstart
  rw [orderClasses_eq, orderClasses_eq, places_bare, List.length_map]
  refine ⟨congrArg List.reverse h.ordered.symm, ?_⟩
  rw [List.reverse_eq_nil_iff, List.reverse_eq_nil_iff, ← List.length_eq_zero_iff,
    ← List.length_eq_zero_iff, h.errors]

/-! What bodies can refer to. -/

theorem ClassLayout.all_bare (c : Container) (ds : List ClassDecl) :
    all c (ds.map ClassDeclOf.bare) = all c ds := by
  have hextend (ls : List ClassLayout) (d : ClassDecl) : extend ls d.bare = extend ls d := by
    obtain ⟨name, base, properties, methods⟩ := d
    unfold extend derive
    simp only [ClassDeclOf.bare, ClassDeclOf.rebuild, List.foldl_map, Option.map_map]
    cases base <;> simp [Token.bare, Token.synthetic, SubroutineOf.rebuild]
  rw [all_eq, all_eq, List.foldl_map]
  simp only [hextend]

theorem SubroutineOf.parameterCount_bare (s : Subroutine) :
    Session.parameterCount s.bare = Session.parameterCount s := by
  rw [Session.parameterCount, Session.parameterCount, bare, rebuild, List.length_map]

namespace Container

variable {c c' : Container} {settings : Settings} {units vs : List SourceUnit} {globals : NameTable}

structure Declares (units vs : List SourceUnit) : Prop where
  globals : (units.flatMap (·.globals)).map Token.bare = (vs.flatMap (·.globals)).map Token.bare
  functions : (newFunctions units).map SubroutineOf.bare = (newFunctions vs).map SubroutineOf.bare
  classes : (newClasses units).map ClassDeclOf.bare = (newClasses vs).map ClassDeclOf.bare

theorem Declares.symm (h : Declares units vs) : Declares vs units :=
  ⟨h.globals.symm, h.functions.symm, h.classes.symm⟩

theorem Declares.orderClasses (h : Declares units vs) (c : Container) :
    (Lss.orderClasses (newClasses units) c).1 = (Lss.orderClasses (newClasses vs) c).1 ∧
      ((Lss.orderClasses (newClasses units) c).2 = [] ↔
        (Lss.orderClasses (newClasses vs) c).2 = []) := by
  obtain ⟨horder, herrors⟩ := orderClasses_bare (newClasses units) c
  obtain ⟨horder', herrors'⟩ := orderClasses_bare (newClasses vs) c
  rw [h.classes] at horder herrors
  exact ⟨horder.symm.trans horder', herrors.symm.trans herrors'⟩

theorem Declares.orderedClasses (h : Declares units vs) (c : Container) :
    (c.orderedClasses units).map ClassDeclOf.bare = (c.orderedClasses vs).map ClassDeclOf.bare := by
  have hget (ds : List ClassDecl) (is : List Nat) :
      (is.filterMap (ds.toArray[·]?)).map ClassDeclOf.bare =
        is.filterMap ((ds.map ClassDeclOf.bare)[·]?) := by
    rw [List.map_filterMap]
    simp only [List.getElem?_toArray, List.getElem?_map]
  unfold Container.orderedClasses
  rw [hget, hget, h.classes, (h.orderClasses c).1]

theorem Declares.declaredBy (h : Declares units vs) (c : Container) (settings : Settings)
    (globals : NameTable) :
    c.declaredBy settings units globals = c.declaredBy settings vs globals := by
  have hfunctions := map_of_bare (q := fun f => (f.name.text, Session.parameterCount f))
    h.functions fun f => Prod.ext rfl f.parameterCount_bare
  have hlayouts : Session.layouts c (c.orderedClasses units) =
      Session.layouts c (c.orderedClasses vs) := by
    unfold Session.layouts
    rw [← ClassLayout.all_bare, h.orderedClasses, ClassLayout.all_bare]
  have hfold (fs : List Subroutine) : fs.foldl
      (fun m f => m.insert f.name.text (Session.parameterCount f)) (Session.signatures c) =
      (fs.map fun f => (f.name.text, Session.parameterCount f)).foldl
        (fun m x => m.insert x.1 x.2) (Session.signatures c) := by rw [List.foldl_map]
  unfold Container.declaredBy
  rw [hlayouts, hfold, hfold, hfunctions]

theorem Declares.registers (h : Declares units vs) (hreg : c.Registers units globals) :
    c.Registers vs globals := by
  have hfunctions : (newFunctions units).map (·.name.text) = (newFunctions vs).map (·.name.text) :=
    map_of_bare h.functions fun _ => rfl
  have hclasses : (newClasses units).map (·.name.text) = (newClasses vs).map (·.name.text) :=
    map_of_bare h.classes fun _ => rfl
  have hglobals : (units.flatMap (·.globals)).map (·.text) =
      (vs.flatMap (·.globals)).map (·.text) :=
    map_of_bare h.globals fun _ => rfl
  have hmethods : (newClasses units).map (fun d => d.methods.map (·.name.text)) =
      (newClasses vs).map (fun d => d.methods.map (·.name.text)) :=
    map_of_bare h.classes fun d => List.map_map ..
  have hall (gs : List Token) : gs.foldlM (fun t g => t.admit? g.text) c.globals =
      (gs.map (·.text)).foldlM NameTable.admit? c.globals := List.foldlM_map.symm
  constructor
  · rw [← hfunctions]
    exact hreg.functions
  · exact forall_of_map_eq hfunctions (P := (· ∉ Session.signatures c)) hreg.freshFunctions
  · rw [hall, ← hglobals, ← hall]
    exact hreg.globals
  · rw [← hclasses]
    exact hreg.classes
  · exact forall_of_map_eq hclasses (P := (c.findClass? · = none)) hreg.freshClasses
  · exact (h.orderClasses c).2.mp hreg.order
  · exact forall_of_map_eq hmethods (P := List.Nodup) hreg.methods

end Container

/-! Bodies. -/

section

variable {env : Env} {declared : Declared}

namespace Lower.Parallel

variable {α β γ : Type} {f g h : Lower α}

theorem symm (k : Parallel f g Eq) : Parallel g f Eq := by
  intro p q hpq
  have hfg := k q p ⟨hpq.strings.symm, hpq.symbols.symm⟩
  generalize f.run.run q = x, g.run.run p = y at hfg
  cases hfg with
  | error => exact .error
  | ok hr hsame => exact .ok hr.symm ⟨hsame.strings.symm, hsame.symbols.symm⟩

theorem trans (k : Parallel f g Eq) (l : Parallel g h Eq) : Parallel f h Eq := by
  intro p q hpq
  have hfg := k p q hpq
  have hgh := l q q (.refl q)
  generalize f.run.run p = x, g.run.run q = y, h.run.run q = z at hfg hgh
  cases hfg with
  | error => cases hgh with | error => exact .error
  | ok hr hsame => cases hgh with | ok hr' hsame' => exact .ok (hr.trans hr') (hsame.trans hsame')

theorem quiet {R : α → β → Prop} {g : Lower β} (k : Parallel f g R) :
    Parallel (quiet f) (quiet g) R := by
  intro p q hpq
  rw [run_quiet, run_quiet]
  have hfg := k ⟨p.strings, p.symbols, []⟩ ⟨q.strings, q.symbols, []⟩ ⟨hpq.strings, hpq.symbols⟩
  generalize f.run.run ⟨p.strings, p.symbols, []⟩ = x, g.run.run ⟨q.strings, q.symbols, []⟩ = y
    at hfg
  cases hfg with
  | error => exact .error
  | ok hr hsame => exact .ok hr ⟨hsame.strings, hsame.symbols⟩

theorem foldlM {step : α → γ → Lower α} {t : γ → γ}
    (hstep : ∀ a c, Parallel (step a c) (step a (t c)) Eq) (cs : List γ) (a : α) :
    Parallel (cs.foldlM step a) ((cs.map t).foldlM step a) Eq := by
  induction cs generalizing a with
  | nil => exact .pure rfl
  | cons c cs ih =>
    rw [List.map_cons, List.foldlM_cons, List.foldlM_cons]
    exact .bind (hstep a c) fun a' _ h => h ▸ ih a'

end Lower.Parallel

theorem lowerFunctions_bare (hlines : env.lineNumbers = false) (fs : List Subroutine) :
    Parallel (lowerFunctions env fs) (lowerFunctions env (fs.map SubroutineOf.bare)) Eq := by
  induction fs with
  | nil => exact .pure rfl
  | cons f fs ih =>
    rw [List.map_cons, Session.lowerFunctions_cons, Session.lowerFunctions_cons]
    refine .bind (lowerSubroutine_bare hlines f).quiet fun code _ hcode => ?_
    refine .bind ih fun es _ hes => .pure ?_
    rw [hcode, hes, f.parameterCount_bare]
    rfl

theorem lowerMethod_bare (hlines : env.lineNumbers = false) (k : ClassEntry) (m : Subroutine) :
    Parallel (lowerMethod env k m) (lowerMethod env k m.bare) Eq := by
  unfold lowerMethod
  refine .bind (Parallel.symbol _).quiet fun s _ hs => ?_
  refine .bind (lowerSubroutine_bare hlines m).quiet fun code _ hcode => .pure ?_
  rw [hs, hcode]

theorem lowerClass_bare (hlines : declared.lineNumbers = false) (ks : List ClassEntry)
    (d : ClassDecl) : Parallel (lowerClass declared ks d) (lowerClass declared ks d.bare) Eq := by
  have hinherited : inherited ks d.bare = inherited ks d := by
    obtain ⟨name, base, properties, methods⟩ := d
    cases base <;> rfl
  have hproperty (k : ClassEntry) (t : Token) :
      Parallel (lowerProperty k t) (lowerProperty k t.bare) Eq :=
    .bind (Parallel.symbol _).quiet fun s _ hs => .pure (by rw [hs])
  have hmethod (k : ClassEntry) (m : Subroutine) :
      Parallel (lowerMethod (Session.envOf declared d) k m)
        (lowerMethod (Session.envOf declared d) k m.bare) Eq :=
    lowerMethod_bare hlines k m
  unfold lowerClass
  rw [hinherited]
  refine .bind (.foldlM hproperty d.properties _) fun k _ hk => ?_
  rw [← hk]
  exact .bind (.foldlM hmethod d.methods k) fun k' _ hk' => .pure (by rw [hk'])

end

namespace Container

variable {c c' : Container} {settings : Settings} {units vs : List SourceUnit} {globals : NameTable}

theorem Declares.lowerUnits (h : Declares units vs) (hlines : settings.lineNumbers = false)
    (c : Container) (globals : NameTable) :
    Parallel (c.lowerUnits settings units globals) (c.lowerUnits settings vs globals) Eq := by
  have hfunctions (fs : List Subroutine) :=
    @lowerFunctions_bare { c.declaredBy settings vs globals with } hlines fs
  have hclasses (ds : List ClassDecl) :=
    Parallel.foldlM (@lowerClass_bare (c.declaredBy settings vs globals) hlines) ds
      c.classes
  unfold Container.lowerUnits
  rw [h.declaredBy]
  refine .bind ((hfunctions _).trans (h.functions ▸ (hfunctions _).symm)) fun es _ hes => ?_
  refine .bind ((hclasses _).trans (h.orderedClasses c ▸ (hclasses _).symm)) fun ks _ hks =>
    .pure ?_
  rw [hes, hks]

/-- Where no lines are marked, units that declare the same are compiled to the same. -/
theorem Declares.compile (h : Declares units vs) (hlines : settings.lineNumbers = false)
    (c : Container) : (c.compile settings units).container = (c.compile settings vs).container := by
  have hgives {units vs : List SourceUnit} (h : Declares units vs) {c' : Container}
      (hc : (c.compile settings units).container = some c') :
      (c.compile settings vs).container = some c' := by
    obtain ⟨globals, lowered, q, hreg, hrun, hlink⟩ := compile_eq_some_iff.mp hc
    have hboth := h.lowerUnits hlines c globals c.pool c.pool (.refl _)
    rw [hrun] at hboth
    generalize hrun' : (c.lowerUnits settings vs globals).run.run c.pool = r at hboth
    cases hboth with
    | @ok _ lowered' _ q' heq hsame =>
      subst heq
      refine compile_eq_some_iff.mpr ⟨globals, lowered, q', h.registers hreg, hrun', ?_⟩
      rw [← hlink, assemble, assemble, hsame.strings, hsame.symbols]
  exact Option.ext fun c' => ⟨hgives h, hgives h.symm⟩

end Container

end Lss
