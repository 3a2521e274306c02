import Lss.Proofs.Flows
import Lss.Proofs.Restored
import Lss.Proofs.Writable

/-!
# Another round

The text of a decompiled container can be compiled and decompiled once more. It always parses.
Where it compiles too, nothing of it is lost in the second round, and every body keeps its control
flow: only declarations in front and a `return` at the end come and go. It need not compile, and the
second text need not be the first.
-/
namespace Lss

open Library

/-! Skeletons do not depend on expressions, and tidying keeps them. -/

namespace Stmt

theorem skeletons_reverse_cons (s : Stmt) (acc : List Stmt) :
    skeletons (s :: acc).reverse = skeletons acc.reverse ++ s.skeleton := by
  rw [List.reverse_cons, skeletons_append, skeletons, skeletons, List.append_nil]

section

variable (f : Expr → Expr) (g : Token → Token) (p : Span → Span)

mutual

theorem skeleton_rebuild : (s : Stmt) → (s.rebuild f g p).skeleton = s.skeleton
  | .block ⟨body, _⟩ => by rw [rebuild, skeleton, skeletons_rebuildAll body, skeleton]
  | .if_ none body (some arm) _ | .if_ none body none _ => by
    rw [rebuild, Option.map_none, skeleton, skeleton_rebuild body, skeleton]
  | .if_ (some _) body (some arm) _ => by
    rw [rebuild, Option.map_some, skeleton, skeleton_rebuild body, skeleton_rebuild arm, skeleton]
  | .if_ (some _) body none _ => by
    rw [rebuild, Option.map_some, skeleton, skeleton_rebuild body, skeleton]
  | .while_ _ body => by rw [rebuild, skeleton, skeleton_rebuild body, skeleton]
  | .doWhile body _ => by rw [rebuild, skeleton, skeleton_rebuild body, skeleton]
  | .foreach _ _ body => by rw [rebuild, skeleton, skeleton_rebuild body, skeleton]
  | .expr _ | .return_ _ _ | .assign _ _ | .var _ _ | .property _ | .global _ => rfl
  | .classDecl ⟨_, _, _, _⟩ | .subroutine ⟨_, _, ⟨_, _⟩⟩ => rfl

theorem skeletons_rebuildAll : (ss : List Stmt) → skeletons (rebuildAll f g p ss) = skeletons ss
  | [] => rfl
  | s :: ss => by
    rw [rebuildAll, skeletons, skeleton_rebuild s, skeletons_rebuildAll ss, skeletons]

end

theorem isReturn_rebuild (s : Stmt) : (s.rebuild f g p).isReturn = s.isReturn := by
  cases s with
  | if_ c body otherwise span => cases otherwise <;> rfl
  | _ => rfl

end

theorem skeletons_replaceAll (f : Expr → Option Expr) (ss : List Stmt) :
    skeletons (replaceAll f [] ss) = skeletons ss := by
  rw [← skeletons_flows, flows_replaceAll, ← skeletons_flows ss]
  rfl

end Stmt

theorem SubroutineOf.skeletons_completed_rebuild (f : Expr → Expr) (g : Token → Token)
    (p : Span → Span) (s : Subroutine) :
    Stmt.skeletons (s.rebuild f g p).completed = Stmt.skeletons s.completed := by
  have hlast : ((s.rebuild f g p).body.statements.getLast?.any Stmt.isReturn)
      = s.body.statements.getLast?.any Stmt.isReturn := by
    rw [rebuild, List.getLast?_map, Option.any_map]
    exact congrArg (s.body.statements.getLast?.any ·) (funext (Stmt.isReturn_rebuild f g p))
  unfold completed
  rw [hlast, Stmt.skeletons_append, Stmt.skeletons_append, rebuild, ← Stmt.rebuildAll_eq,
    Stmt.skeletons_rebuildAll]

namespace Tidy

theorem loopHead?_skeletons {first second : Stmt} {head : LoopHead}
    (h : loopHead? first second = some head) :
    first.skeleton = [.assign] ∧ second.skeleton = [.assign] := by
  unfold loopHead? at h
  split at h
  · exact ⟨rfl, rfl⟩
  · cases h

theorem loopBody?_skeleton {head : LoopHead} {s : Stmt} {body : List Stmt}
    (h : loopBody? head s = some body) :
    s.skeleton = [.while_ (Stmt.skeletons body ++ [Skeleton.assign])] := by
  unfold loopBody? at h
  split at h
  · next c whole _ =>
    split at h
    · next l r step _ hlast =>
      split at h
      · next hstep =>
        cases h
        obtain ⟨front, rfl⟩ := List.getLast?_eq_some_iff.mp hlast
        rw [Bool.and_eq_true] at hstep
        have hassign : step.skeleton = [.assign] := by
          cases step with
          | assign t v => rfl
          | _ => cases hstep.2
        rw [Stmt.skeleton, Stmt.skeleton, List.dropLast_concat, Stmt.skeletons_append,
          Stmt.skeletons, hassign]
        rfl
      · cases h
    · cases h
  · cases h

/-- A loop over a collection has the skeleton of the statements that spell it out. -/
theorem foreach?_skeletons {element : Token} {first second third : Stmt} {c : Expr}
    {body : List Stmt} (h : foreach? element first second third = some (c, body)) :
    first.skeleton ++ second.skeleton ++ third.skeleton
      = [.assign, .assign, .while_ (Stmt.skeletons body ++ [Skeleton.assign])] := by
  simp only [foreach?, Option.bind_eq_bind, Option.bind_eq_some_iff] at h
  obtain ⟨head, hhead, whole, hwhole, h⟩ := h
  obtain ⟨hfirst, hsecond⟩ := loopHead?_skeletons hhead
  rw [hfirst, hsecond, loopBody?_skeleton hwhole]
  split at h
  · cases h
  · split at h
    · cases h
    · cases h
      rw [Stmt.skeletons_replaceAll]
      rfl

mutual

theorem foldLoops_skeletons (n : Nat) (acc ss : List Stmt) :
    Stmt.skeletons (foldLoops n acc ss).1 = Stmt.skeletons acc.reverse ++ Stmt.skeletons ss := by
  match ss with
  | [] => rw [foldLoops, Stmt.skeletons, List.append_nil]
  | [a] =>
    rw [foldLoops]
    dsimp only
    rw [Stmt.skeletons_reverse_cons, foldInside_skeleton n a, Stmt.skeletons, Stmt.skeletons,
      List.append_nil]
  | [a, b] =>
    rw [foldLoops]
    dsimp only
    rw [foldLoops_skeletons _ _ [b], Stmt.skeletons_reverse_cons, foldInside_skeleton n a,
      List.append_assoc, ← Stmt.skeletons]
  | a :: b :: c :: rest =>
    rw [foldLoops]
    split
    · next collection body h =>
      have _lt := weightAll_foreach h
      have hloop : (Stmt.foreach (itemName (n + 1)) collection
          (.ofList (foldLoops (n + 1) [] body).1)).skeleton
            = a.skeleton ++ b.skeleton ++ c.skeleton := by
        rw [foreach?_skeletons h, Stmt.skeleton, Stmt.skeleton_ofList, foldLoops_skeletons _ _ body]
        rfl
      dsimp only
      rw [foldLoops_skeletons _ _ rest, Stmt.skeletons_reverse_cons, hloop]
      simp only [Stmt.skeletons, List.append_assoc]
    · dsimp only
      rw [foldLoops_skeletons _ _ (b :: c :: rest), Stmt.skeletons_reverse_cons,
        foldInside_skeleton n a, List.append_assoc, ← Stmt.skeletons]
termination_by Stmt.weightAll ss
decreasing_by all_goals (simp only [Stmt.weightAll] at *; omega)

theorem foldInside_skeleton (n : Nat) (s : Stmt) : (foldInside n s).1.skeleton = s.skeleton := by
  match s with
  | .block ⟨body, span⟩ =>
    rw [foldInside]
    exact foldLoops_skeletons n [] body
  | .if_ none body (some arm) span | .if_ none body none span =>
    rw [foldInside]
    exact foldInside_skeleton n body
  | .if_ (some c) body (some arm) span =>
    rw [foldInside]
    dsimp only
    rw [Stmt.skeleton, foldInside_skeleton n body, foldInside_skeleton _ arm, Stmt.skeleton]
  | .if_ (some c) body none span =>
    rw [foldInside]
    dsimp only
    rw [Stmt.skeleton, foldInside_skeleton n body, Stmt.skeleton]
  | .while_ c body =>
    rw [foldInside]
    dsimp only
    rw [Stmt.skeleton, foldInside_skeleton n body, Stmt.skeleton]
  | .doWhile body c =>
    rw [foldInside]
    dsimp only
    rw [Stmt.skeleton, foldInside_skeleton n body, Stmt.skeleton]
  | .foreach x c body =>
    rw [foldInside]
    dsimp only
    rw [Stmt.skeleton, foldInside_skeleton n body, Stmt.skeleton]
  | .expr _ | .return_ _ _ | .assign _ _ | .var _ _ | .classDecl _ | .property _ | .subroutine _
  | .global _ =>
    rw [foldInside]
    all_goals exact fun _ => nofun
termination_by s.weight
decreasing_by all_goals (simp only [Stmt.weight] at *; omega)

end

end Tidy

/-- The same control flow, but for declarations in front and a `return` at the end. -/
def Skeleton.Near (a b : List Skeleton) : Prop :=
  ∃ n, a = List.replicate n Skeleton.assign ++ b ∨
    a ++ [Skeleton.return_] = List.replicate n Skeleton.assign ++ b

theorem tidy_near (ss : List Stmt) :
    Skeleton.Near (Stmt.skeletons (tidy ss)) (Stmt.skeletons ss) := by
  have hassigns (n : Nat) :
      Flow.skeletons (List.replicate n .assign) = List.replicate n .assign := by
    induction n with
    | zero => rfl
    | succ n ih => rw [List.replicate_succ, Flow.skeletons, ih]; rfl
  have hfold : Stmt.skeletons (Tidy.foldLoops 0 [] ss).1 = Stmt.skeletons ss :=
    Tidy.foldLoops_skeletons 0 [] ss
  obtain ⟨n, last, hlast, h⟩ := tidy_flows ss
  have h := congrArg Flow.skeletons h
  rw [Flow.skeletons_append, Flow.skeletons_append, Stmt.skeletons_flows, Stmt.skeletons_flows,
    hassigns, hfold] at h
  simp only [List.mem_cons, List.not_mem_nil, or_false] at hlast
  rcases hlast with rfl | rfl
  · exact ⟨n, .inl (by rw [← h]; exact (List.append_nil _).symm)⟩
  · exact ⟨n, .inr h⟩

/-- The same control flow as the statements that `s` stands for, up to its two ends. -/
def SubroutineOf.Retraces (r s : Subroutine) : Prop :=
  Skeleton.Near (Stmt.skeletons r.body.statements) (Stmt.skeletons s.completed)

/-- Compiled code is read back as a subroutine that retraces its source. -/
theorem Compiled.retraced {c : Container} {isMethod : Bool} {s : Subroutine} {code : Code}
    (h : Compiled c isMethod s code) (name : String) (names : SlotNames) :
    ∃ r, (ofContainer c).subroutine name names code = .ok r ∧ r.name = .identifier name ∧
      r.parameters = names.parameters ∧ r.Retraces s := by
  obtain ⟨b, ss, hb, hss, hsk⟩ := h.restores names
  refine ⟨⟨.identifier name, names.parameters, ⟨tidy ss, .synthetic⟩⟩, ?_, rfl, rfl, ?_⟩
  · unfold Library.subroutine
    rw [hb]
    show (b.statements >>= _) = _
    rw [hss]
    rfl
  · unfold SubroutineOf.Retraces
    rw [← hsk]
    exact tidy_near ss

/-! Globals keep their order. -/

namespace Session

theorem addGlobal_distinct {s : Session} (h : s.container.globals.Distinct) (t : Token) :
    (addGlobal s t).container.globals.Distinct ∧
      ((addGlobal s t).errors = [] → t.text ∉ s.container.globals.toList →
        (addGlobal s t).container.globals.toList = s.container.globals.toList ++ [t.text]) := by
  obtain ⟨⟨major, minor, strings, symbols, globals, functions, classes⟩, errors, warnings⟩ := s
  obtain ⟨hdistinct, hlast⟩ := NameTable.Distinct.intern h t.text
  rcases hi : globals.intern t.text with ⟨e | i, grown⟩ <;> rw [hi] at hdistinct hlast
  · simp only [addGlobal, hi]
    refine ⟨hdistinct, fun herr => ?_⟩
    cases herr
  · simp only [addGlobal, hi]
    exact ⟨hdistinct, fun _ => hlast i rfl⟩

/-- Globals that are declared once each are numbered in the order of their declarations. -/
theorem foldl_addGlobal_distinct {s : Session} (h : s.container.globals.Distinct)
    (ts : List Token) : (ts.foldl addGlobal s).container.globals.Distinct ∧
      ((ts.foldl addGlobal s).errors = [] →
        (s.container.globals.toList ++ ts.map (·.text)).Nodup →
        (ts.foldl addGlobal s).container.globals.toList
          = s.container.globals.toList ++ ts.map (·.text)) := by
  induction ts generalizing s with
  | nil => exact ⟨h, fun _ _ => (List.append_nil _).symm⟩
  | cons t ts ih =>
    obtain ⟨hdistinct, hlast⟩ := addGlobal_distinct h t
    obtain ⟨hall, hlist⟩ := ih hdistinct
    refine ⟨hall, fun herr hnodup => ?_⟩
    rw [List.map_cons, List.append_cons] at hnodup ⊢
    have hquiet : (addGlobal s t).errors = [] :=
      nil_of_suffix (suffix_foldl (e := errors) suffix_addGlobal ts _) herr
    have hnew : t.text ∉ s.container.globals.toList := fun hmem =>
      List.disjoint_of_nodup_append (List.Nodup.of_append_left hnodup) hmem List.mem_cons_self
    rw [← hlast hquiet hnew] at hnodup ⊢
    exact hlist herr hnodup

end Session

namespace Library

/-- Where every function can be read, all are found, in order. -/
theorem found_functions {l : Library} {P : FunctionEntry → Subroutine → Prop}
    {es : List FunctionEntry} (h : ∀ e ∈ es, ∃ r, l.functionSubroutine e = .ok r ∧ P e r)
    (p : Progress Subroutine) : ∃ rs, List.Forall₂ P es rs ∧
      (es.foldl l.addFunction p).found.reverse = p.found.reverse ++ rs := by
  induction es generalizing p with
  | nil => exact ⟨[], .nil, (List.append_nil _).symm⟩
  | cons e es ih =>
    obtain ⟨⟨r, hr, hp⟩, hes⟩ := List.forall_mem_cons.mp h
    obtain ⟨rs, hall, hfound⟩ := ih hes (l.addFunction p e)
    refine ⟨r :: rs, .cons hp hall, ?_⟩
    rw [List.foldl_cons, hfound, addFunction, hr, Progress.add, List.reverse_cons,
      List.append_assoc, List.singleton_append]

end Library

/-- What a second round must know of a subroutine: its name, how many parameters it has, and its
control flow. -/
def SubroutineOf.outline (s : Subroutine) : String × Nat × List Skeleton :=
  (s.name.text, s.parameters.length, Stmt.skeletons s.completed)

theorem SubroutineOf.outline_rebuild {f : Expr → Expr} {g : Token → Token} {p : Span → Span}
    (hg : ∀ t, (g t).text = t.text) (s : Subroutine) : (s.rebuild f g p).outline = s.outline := by
  unfold outline
  rw [skeletons_completed_rebuild, rebuild, hg, List.length_map]

namespace Container

/-- What a container has of a unit: its globals and functions in order, the methods of its classes,
and nothing that cannot be read. -/
structure Retraced (d : Container) (u : SourceUnit) : Prop where
  failures : d.decompile.failures = []
  globals : d.decompile.unit.globals = u.globals
  functions : List.Forall₂
    (fun s r => r.name = s.name ∧ r.parameters = s.parameters ∧ r.Retraces s)
    u.functions d.decompile.unit.functions
  methods : ∀ decl ∈ u.classes, ∃ k ∈ d.classes, k.name = decl.name.text ∧
    ∀ m ∈ decl.methods, ∃ e ∈ k.methods, ∃ r, (ofContainer d).methodSubroutine e = .ok r ∧
      r.name = m.name ∧ r.Retraces m

variable {c d : Container} {u v : SourceUnit}

/-- Globals are numbered in the order of their declarations, when each is declared once. -/
theorem compile_globals {options : Settings} {units : List SourceUnit}
    (h : ((ofSettings options).compile options units).container = some d) :
    d.globals.Distinct ∧ (((units.flatMap (·.globals)).map (·.text)).Nodup →
      d.globals.toList = (units.flatMap (·.globals)).map (·.text)) := by
  obtain ⟨declared, new, t, hadds, hlink⟩ := compile_adds (holds_nil options) h
  have hglobals : d.globals = declared.globals := by
    rw [link_eq hlink]
    exact hadds.globals
  obtain ⟨hquiet, hinterned⟩ := hadds.interned
  obtain ⟨hdistinct, hlist⟩ := Session.foldl_addGlobal_distinct
    (s := { container := ofSettings options }) NameTable.distinct_empty (units.flatMap (·.globals))
  rw [hinterned, ← hglobals] at hdistinct hlist
  exact ⟨hdistinct, hlist hquiet⟩

/-- Decompiled subroutines have plain names and numbered parameters. -/
theorem decompile_heads (c : Container) : ∀ s ∈ c.decompile.unit.subroutines,
    s.name = .identifier s.name.text ∧
      s.parameters = (numbered "param" s.parameters.length).map .identifier := by
  refine decompile_subroutines fun name names code s hs => ?_
  obtain ⟨b, -, hs⟩ := bind_ok hs
  obtain ⟨ss, -, hs⟩ := bind_ok hs
  cases hs
  refine ⟨rfl, names.parameters_eq.trans ?_⟩
  rw [SlotNames.parameters, List.length_map, List.length_range]

/-- A subroutine that is read from compiled code, beside one with the outline of its source. -/
theorem retraces_of_outline {isMethod : Bool} {s t r : Subroutine} {code : Code} {name : String}
    {names : SlotNames} (h : Compiled d isMethod t code) (hout : t.outline = s.outline)
    (hr : (ofContainer d).subroutine name names code = .ok r) :
    r.name = .identifier name ∧ r.parameters = names.parameters ∧ r.Retraces s := by
  obtain ⟨r', hr', hname, hparameters, hbody⟩ := h.retraced name names
  rw [hr] at hr'
  cases hr'
  have hskeletons : Stmt.skeletons t.completed = Stmt.skeletons s.completed :=
    congrArg (·.2.2) hout
  unfold SubroutineOf.Retraces at hbody ⊢
  rw [hskeletons] at hbody
  exact ⟨hname, hparameters, hbody⟩

theorem forall₂_of_map_eq {α β : Type} {q : α → β} {xs ys : List α} (h : xs.map q = ys.map q) :
    List.Forall₂ (fun x y => q x = q y) xs ys := by
  rw [← List.forall₂_eq_eq_eq, List.forall₂_map_left_iff, List.forall₂_map_right_iff] at h
  exact h

theorem forall₂_comp {α β γ : Type} {R : α → β → Prop} {S : β → γ → Prop} {xs : List α}
    {ys : List β} {zs : List γ} (hxy : List.Forall₂ R xs ys) (hyz : List.Forall₂ S ys zs) :
    List.Forall₂ (fun x z => ∃ y, R x y ∧ S y z) xs zs := by
  induction hxy generalizing zs with
  | nil =>
    cases hyz
    exact .nil
  | cons hr _ ih =>
    cases hyz with
    | cons hs hyz => exact .cons ⟨_, hr, hs⟩ (ih hyz)

/-- What a container holds of a unit with the outlines of another retraces that one. -/
theorem Holds.retraced (h : d.Holds [v]) (hglobals : d.decompile.unit.globals = u.globals)
    (hheads : ∀ s ∈ u.subroutines, s.name = .identifier s.name.text ∧
      s.parameters = (numbered "param" s.parameters.length).map .identifier)
    (hfunctions : u.functions.map SubroutineOf.outline = v.functions.map SubroutineOf.outline)
    (hclasses : u.classes.map (fun k => (k.name.text, k.methods.map SubroutineOf.outline))
      = v.classes.map fun k => (k.name.text, k.methods.map SubroutineOf.outline)) :
    d.Retraced u := by
  refine ⟨h.failures, hglobals, ?_, ?_⟩
  · have hread : ∀ e ∈ d.functions, ∃ r, (ofContainer d).functionSubroutine e = .ok r ∧
        (ofContainer d).functionSubroutine e = .ok r := by
      intro e he
      obtain ⟨t, -, ht⟩ := h.exists_bears he
      obtain ⟨r, hr, -⟩ := ht.code.retraced e.name { parameterCount := e.parameterCount }
      exact ⟨r, hr, hr⟩
    obtain ⟨rs, hrs, hfound⟩ := found_functions hread {}
    have hunit : d.decompile.unit.functions = rs := hfound
    have hentries : List.Forall₂ (FunctionEntry.Bears d) v.functions d.functions := by
      simpa using h.functions
    rw [hunit]
    have hchain := forall₂_comp (forall₂_of_map_eq hfunctions) (forall₂_comp hentries hrs)
    have hboth := (List.forall₂_and_left _ _).mpr
      ⟨fun s hs => hheads s (List.mem_append_left _ hs), hchain⟩
    refine hboth.imp ?_
    rintro s r ⟨⟨hname, hparameters⟩, t, hout, e, ht, hr⟩
    obtain ⟨hrname, hrparameters, hbody⟩ := retraces_of_outline ht.code hout.symm hr
    have htext : t.name.text = s.name.text := (congrArg (·.1) hout).symm
    have hcount : t.parameters.length = s.parameters.length := (congrArg (·.2.1) hout).symm
    refine ⟨?_, ?_, hbody⟩
    · rw [hrname, ht.name, htext, ← hname]
    · rw [hrparameters, SlotNames.parameters_eq, hparameters, ← hcount, ← ht.parameters]
  · intro decl hdecl
    obtain ⟨decl', hdecl', hsame⟩ := List.mem_map.mp (hclasses ▸ List.mem_map_of_mem hdecl)
    rw [Prod.mk.injEq] at hsame
    obtain ⟨k, hk, hname, hhas⟩ := h.declared decl' (by simpa using hdecl')
    refine ⟨k, hk, hname.trans hsame.1, fun m hm => ?_⟩
    obtain ⟨m', hm', hout⟩ := List.mem_map.mp (hsame.2 ▸ List.mem_map_of_mem hm)
    obtain ⟨e, he, hsymbol, -, hcode⟩ := hhas m' hm'
    have hread : (ofContainer d).methodSubroutine e = (ofContainer d).subroutine m'.name.text
        { isMethod := true, parameterCount := e.parameterCount } e.code := by
      unfold methodSubroutine
      rw [show (ofContainer d).container.symbol e.symbol = .ok m'.name.text from symbol_ok hsymbol]
    obtain ⟨r, hr, -⟩ := hcode.retraced m'.name.text
      { isMethod := true, parameterCount := e.parameterCount }
    obtain ⟨hrname, -, hbody⟩ := retraces_of_outline hcode hout hr
    have htext : m'.name.text = m.name.text := congrArg (·.1) hout
    have hmember : m ∈ u.subroutines :=
      List.mem_append_right _ (List.mem_flatMap.mpr ⟨decl, hdecl, hm⟩)
    refine ⟨e, he, r, hread.trans hr, ?_, hbody⟩
    rw [hrname, htext, ← (hheads m hmember).1]

/-- The text of what a source was compiled to parses without complaint, and what it is compiled to
in turn retraces it. -/
theorem recompile_retraced {settings : Settings} {source : String} {file : Option String}
    (hc : (compileSource settings source file).container = some c) (n : Nat)
    (again : Option String) :
    (SourceUnit.ofSource (c.decompile.unit.text (spaces n)) again).2 = [] ∧
      ∀ (options : Settings) (d : Container),
        (compileSource options (c.decompile.unit.text (spaces n)) again).container = some d →
          d.Retraced c.decompile.unit := by
  have hwritable := compileSource_writable hc
  obtain ⟨-, -, hparse⟩ := (decompile_formed hwritable).reread n again
  refine ⟨hparse trivial, fun options d hd => ?_⟩
  obtain ⟨hfunctions, hclasses⟩ := reread_map hwritable n again SubroutineOf.outline
    (SubroutineOf.outline_rebuild fun _ => rfl) (SubroutineOf.outline_rebuild fun _ => rfl)
  have hnames := reread_globals hwritable n again
  rw [container_compileSource] at hc hd
  obtain ⟨hdistinct, -⟩ := compile_globals hc
  obtain ⟨-, hlist⟩ := compile_globals hd
  rw [List.flatMap_singleton, hnames] at hlist
  have hglobals : d.decompile.unit.globals = c.decompile.unit.globals :=
    congrArg (List.map Token.identifier) (hlist hdistinct.nodup)
  have hholds := (holds_nil options).compile hd
  exact hholds.retraced hglobals (decompile_heads c) hfunctions.symm hclasses.symm

def sought : String := "function f(a) { foreach (x in a) { if (x) { return x; } } }"

theorem recompile_retraced_sought :
    ∃ c d, (compileSource {} sought none).container = some c ∧
      (compileSource {} (c.decompile.unit.text (spaces 0)) none).container = some d ∧
      d.functions.length = 1 ∧ d.Retraced c.decompile.unit := by
  have hrun : (compileSource {} sought none).container.any fun c =>
      (compileSource {} (c.decompile.unit.text (spaces 0)) none).container.any
        (·.functions.length = 1) := by
    decide +kernel
  obtain ⟨c, hc, hrest⟩ := (Option.any_eq_true _ _).mp hrun
  obtain ⟨d, hd, hlength⟩ := (Option.any_eq_true _ _).mp hrest
  refine ⟨c, d, hc, hd, of_decide_eq_true hlength, ?_⟩
  exact (recompile_retraced hc 0 none).2 {} d hd

/-- The object itself in parentheses, so that its method is looked up by name. -/
def enclosed : String := "class C { function m() { (this).go(); } }"

def opposed : String := "function f() { return -(-5); }"

/-- The parentheses are not in the text of the container. Without them, a call is refused that was
compiled before, and a number has lost its signs one round later. -/
theorem recompile_unsteady :
    (∃ c, (compileSource {} enclosed none).hasErrors = false ∧
      (compileSource {} enclosed none).container = some c ∧
      (compileSource {} (c.decompile.unit.text (spaces 4)) none).container = none) ∧
    ∃ c d, (compileSource {} opposed none).hasErrors = false ∧
      (compileSource {} opposed none).container = some c ∧
      (compileSource {} (c.decompile.unit.text (spaces 4)) none).container = some d ∧
      c.decompile.unit.text (spaces 4) = "function f() \x7b\n    return --5;\n\x7d\n" ∧
      d.decompile.unit.text (spaces 4) = "function f() \x7b\n    return 5;\n\x7d\n" := by
  constructor
  · have hrun : (compileSource {} enclosed none).hasErrors = false ∧
        (compileSource {} enclosed none).container.any fun c =>
          (compileSource {} (c.decompile.unit.text (spaces 4)) none).container.isNone := by
      decide +kernel
    obtain ⟨hquiet, hany⟩ := hrun
    obtain ⟨c, hc, hnone⟩ := (Option.any_eq_true _ _).mp hany
    exact ⟨c, hquiet, hc, Option.isNone_iff_eq_none.mp hnone⟩
  · have hrun : (compileSource {} opposed none).hasErrors = false ∧
        (compileSource {} opposed none).container.any fun c =>
          (compileSource {} (c.decompile.unit.text (spaces 4)) none).container.any fun d =>
            decide (
              c.decompile.unit.text (spaces 4) = "function f() \x7b\n    return --5;\n\x7d\n" ∧
              d.decompile.unit.text (spaces 4) = "function f() \x7b\n    return 5;\n\x7d\n") := by
      decide +kernel
    obtain ⟨hquiet, hany⟩ := hrun
    obtain ⟨c, hc, hrest⟩ := (Option.any_eq_true _ _).mp hany
    obtain ⟨d, hd, htexts⟩ := (Option.any_eq_true _ _).mp hrest
    exact ⟨c, d, hquiet, hc, hd, of_decide_eq_true htexts⟩

end Container

end Lss
