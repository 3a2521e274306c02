import Lss.Proofs.Writable

/-!
# Globals beside generated names

The text of a decompiled container introduces numbered names only, without regard to the names of
its globals. A global whose name is none of those is what it was when the text is compiled again: no
frame ever binds its name. A global with such a name is hidden by it.
-/
namespace Lss

section

variable {f : Expr → Expr} {g : Token → Token} {p : Span → Span}

mutual

theorem Stmt.binders_rebuild (hg : ∀ t, (g t).text = t.text) :
    (s : Stmt) → (s.rebuild f g p).binders = s.binders
  | .block ⟨body, _⟩ => by
    rw [rebuild, binders, bindersAll_rebuildAll hg body, binders]
  | .if_ _ body (some arm) _ => by
    rw [rebuild, binders, binders_rebuild hg body, binders_rebuild hg arm, binders]
  | .if_ _ body none _ => by rw [rebuild, binders, binders_rebuild hg body, binders]
  | .while_ _ body => by rw [rebuild, binders, binders_rebuild hg body, binders]
  | .doWhile body _ => by rw [rebuild, binders, binders_rebuild hg body, binders]
  | .foreach x _ body => by rw [rebuild, binders, binders_rebuild hg body, binders, hg x]
  | .var name _ => by rw [rebuild, binders, binders, hg name]
  | .expr _ | .return_ _ _ | .assign _ _ | .property _ | .global _ => rfl
  | .classDecl ⟨_, _, _, _⟩ | .subroutine ⟨_, _, ⟨_, _⟩⟩ => rfl

theorem Stmt.bindersAll_rebuildAll (hg : ∀ t, (g t).text = t.text) :
    (ss : List Stmt) → bindersAll (rebuildAll f g p ss) = bindersAll ss
  | [] => rfl
  | s :: ss => by
    rw [rebuildAll, bindersAll, binders_rebuild hg s, bindersAll_rebuildAll hg ss, bindersAll]

end

theorem SubroutineOf.binders_rebuild (hg : ∀ t, (g t).text = t.text) (s : Subroutine) :
    (s.rebuild f g p).binders = s.binders := by
  unfold binders rebuild
  dsimp only
  rw [← Stmt.rebuildAll_eq, Stmt.bindersAll_rebuildAll hg, List.map_map]
  simp only [Function.comp_def, hg]

end

def SubroutineOf.Numbered (s : Subroutine) : Prop :=
  ∀ role : Role, ∃ n, Binder.names role s.binders = numbered role.stem n

namespace Container

theorem decompile_numbered (c : Container) : ∀ s ∈ c.decompile.unit.subroutines, s.Numbered :=
  decompile_subroutines fun _ _ _ _ hs => Library.subroutine_binders hs

/-- The text of a decompiled container introduces the names of the unit. -/
theorem reread_numbered {c : Container} (hc : c.Writable) (n : Nat) (file : Option String) :
    ∀ s ∈ (SourceUnit.ofSource (c.decompile.unit.text (spaces n)) file).1.subroutines,
      s.Numbered := by
  obtain ⟨hfunctions, hclasses⟩ := reread_map hc n file SubroutineOf.binders
    (SubroutineOf.binders_rebuild fun _ => rfl) (SubroutineOf.binders_rebuild fun _ => rfl)
  generalize (SourceUnit.ofSource (c.decompile.unit.text (spaces n)) file).1 = u
    at hfunctions hclasses
  have hmethods : (u.classes.flatMap (·.methods)).map SubroutineOf.binders
      = (c.decompile.unit.classes.flatMap (·.methods)).map SubroutineOf.binders := by
    have h := congrArg (List.flatMap Prod.snd) hclasses
    rwa [List.flatMap_map, List.flatMap_map, ← List.map_flatMap, ← List.map_flatMap] at h
  have hsame : u.subroutines.map SubroutineOf.binders
      = c.decompile.unit.subroutines.map SubroutineOf.binders := by
    unfold SourceUnit.subroutines
    rw [List.map_append, List.map_append, hfunctions, hmethods]
  intro s hs
  have hmem := List.mem_map_of_mem (f := SubroutineOf.binders) hs
  rw [hsame] at hmem
  obtain ⟨r, hr, heq⟩ := List.mem_map.mp hmem
  unfold SubroutineOf.Numbered
  rw [← heq]
  exact decompile_numbered c r hr

end Container

def Generated (name : String) : Prop :=
  ∃ (role : Role) (k : Nat), name = role.stem ++ toString (k + 1)

theorem SubroutineOf.Numbered.generated {s : Subroutine} (h : s.Numbered) :
    ∀ b ∈ s.binders, Generated b.name := by
  rintro ⟨role, name⟩ hb
  obtain ⟨n, hn⟩ := h role
  have hmem := Binder.mem_names.mpr hb
  rw [hn] at hmem
  obtain ⟨k, -, rfl⟩ := List.mem_map.mp hmem
  exact ⟨role, k, rfl⟩

/-- Frames are never thrown away, and none that lowering the subroutine opened binds the name:
wherever the name stands, it is read and assigned as a global. -/
def SubroutineOf.Leaves (s : Subroutine) (name : String) : Prop :=
  ∀ (env : Env) (d : Draft) (p q : Pool) (code : Code) (scopes : Scopes),
    Draft.start s.name.text s.parameters env.owner.isSome = .ok d →
    (lowerStmts env [] d.scopes s.body.statements).run.run p = (.ok (code, scopes), q) →
    ∀ frame, scopes.resolveFrom name frame = none

theorem SubroutineOf.Proper.leaves {s : Subroutine} (hs : s.Proper) {name : String}
    (hname : IsName name) (hnew : ∀ b ∈ s.binders, b.name ≠ name) : s.Leaves name := by
  intro env d p q code scopes hd hrun frame
  have hwrites : Lower.Writes env.Named (lowerStmts env [] d.scopes s.body.statements) _ :=
    lowerBody_writes hs.names hd
  have hkept := (hwrites p).2 (code, scopes) (by rw [hrun])
  rw [Option.eq_none_iff_forall_ne_some]
  intro v hv
  rcases (hkept.2.resolveFrom hv).1 with ⟨b, hb, heq⟩ | hhead
  · exact hnew b hb heq
  · exact hname.head_ne_dollar rfl hhead

namespace Container

/-- In the text of what a source was compiled to, subroutines introduce numbered names only, and a
global with another name is bound in none of them. -/
theorem decompile_uncaptured {settings : Settings} {source : String} {file : Option String}
    {c : Container} (hc : (compileSource settings source file).container = some c) (n : Nat)
    (again : Option String) :
    ∀ s ∈ (SourceUnit.ofSource (c.decompile.unit.text (spaces n)) again).1.subroutines,
      s.Numbered ∧ ∀ g ∈ c.globals.toList, ¬ Generated g →
        (∀ b ∈ s.binders, b.name ≠ g) ∧ s.Leaves g := by
  intro s hs
  have hwritable := compileSource_writable hc
  have hnumbered := reread_numbered hwritable n again s hs
  have hproper := (SourceUnit.ofSource_proper _ again).subroutines s hs
  refine ⟨hnumbered, fun g hg hnew => ?_⟩
  have hne : ∀ b ∈ s.binders, b.name ≠ g := by
    rintro b hb rfl
    exact hnew (hnumbered.generated b hb)
  exact ⟨hne, hproper.leaves (hwritable.globals g hg) hne⟩

def tallied : String :=
  "global total; function sum(list) { foreach (x in list) { total = total + x; } return total; }" ++
    "class Tally { function add(n) { var old = total; total = old + n; return old; } }"

theorem decompile_uncaptured_tallied :
    ∃ c, (compileSource {} tallied none).container = some c ∧ c.globals.toList = ["total"] ∧
      ¬ Generated "total" ∧
      ∀ s ∈ (SourceUnit.ofSource (c.decompile.unit.text (spaces 4)) none).1.subroutines,
        (∀ b ∈ s.binders, b.name ≠ "total") ∧ s.Leaves "total" := by
  have hrun :
      (compileSource {} tallied none).container.any (·.globals.toList == ["total"]) := by
    decide +kernel
  obtain ⟨c, hc, hglobals⟩ := (Option.any_eq_true _ _).mp hrun
  have hglobals : c.globals.toList = ["total"] := by simpa using hglobals
  have hnew : ¬ Generated "total" := by
    rintro ⟨role, k, h⟩
    have hhead := congrArg (fun s : String => s.toList.take 3) h
    cases role <;> simp [Role.stem] at hhead
  refine ⟨c, hc, hglobals, hnew, fun s hs => ?_⟩
  exact (decompile_uncaptured hc 4 none s hs).2 "total" (by simp [hglobals]) hnew

/-- A function that reads a global with the name of its own first parameter. -/
def shadowed : String := "global param1; function f(x) { return param1; }"

/-- Compiled, decompiled and compiled again, the function returns its argument and no longer the
global. -/
theorem decompile_captures_shadowed :
    ∃ c d, (compileSource {} shadowed none).container = some c ∧
      (compileSource {} (c.decompile.unit.text (spaces 4)) none).container = some d ∧
      c.globals.toList = ["param1"] ∧
      (∃ s ∈ (SourceUnit.ofSource (c.decompile.unit.text (spaces 4)) none).1.subroutines,
        ⟨.parameter, "param1"⟩ ∈ s.binders) ∧
      c.functions.map (·.code) = [[.getVariable (.ofGlobal 0), .return_]] ∧
      d.functions.map (·.code) = [[.getVariable (.ofLocal 0), .return_]] := by
  have hrun : (compileSource {} shadowed none).container.any fun c =>
      (compileSource {} (c.decompile.unit.text (spaces 4)) none).container.any fun d =>
        decide (c.globals.toList = ["param1"] ∧
          (∃ s ∈ (SourceUnit.ofSource (c.decompile.unit.text (spaces 4)) none).1.subroutines,
            ⟨.parameter, "param1"⟩ ∈ s.binders) ∧
          c.functions.map (·.code) = [[.getVariable (.ofGlobal 0), .return_]] ∧
          d.functions.map (·.code) = [[.getVariable (.ofLocal 0), .return_]]) := by
    decide +kernel
  obtain ⟨c, hc, hrest⟩ := (Option.any_eq_true _ _).mp hrun
  obtain ⟨d, hd, hfacts⟩ := (Option.any_eq_true _ _).mp hrest
  exact ⟨c, d, hc, hd, of_decide_eq_true hfacts⟩

end Container

end Lss
