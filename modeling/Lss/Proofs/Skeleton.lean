import Lss.Tree.Basic

/-!
# Control skeletons

What is left of statements when their expressions are forgotten. Plain blocks and the arms of
branches are lists, a declaration is an assignment, a `foreach` is the loop it stands for, and an
`else` without statements is none.
-/
namespace Lss

inductive Skeleton where
  | expr
  | assign
  | return_
  | if_ (body arm : List Skeleton)
  | while_ (body : List Skeleton)
  | doWhile (body : List Skeleton)
deriving Repr

namespace Stmt

mutual

def skeleton : Stmt → List Skeleton
  | .block ⟨body, _⟩ => skeletons body
  | .expr _ => [.expr]
  | .var _ _ | .assign _ _ => [.assign]
  | .return_ _ _ => [.return_]
  -- the arm of an `else`, which is no statement of its own
  | .if_ none body _ _ => skeleton body
  | .if_ (some _) body none _ => [.if_ (skeleton body) []]
  | .if_ (some _) body (some arm) _ => [.if_ (skeleton body) (skeleton arm)]
  | .while_ _ body => [.while_ (skeleton body)]
  | .doWhile body _ => [.doWhile (skeleton body)]
  | .foreach _ _ body => [.assign, .assign, .while_ (skeleton body ++ [Skeleton.assign])]
  | .classDecl _ | .property _ | .subroutine _ | .global _ => []

def skeletons : List Stmt → List Skeleton
  | [] => []
  | s :: ss => skeleton s ++ skeletons ss

end

@[simp] theorem skeletons_append (a b : List Stmt) :
    skeletons (a ++ b) = skeletons a ++ skeletons b := by
  induction a with
  | nil => rfl
  | cons s a ih => simp [skeletons, ih]

@[simp] theorem skeleton_ofList (body : List Stmt) : (ofList body).skeleton = skeletons body := by
  simp [ofList, skeleton]

end Stmt

/-- The statements that a body stands for: unless it ends in a `return`, one is added. -/
def SubroutineOf.completed (s : Subroutine) : List Stmt :=
  s.body.statements ++
    if s.body.statements.getLast?.any Stmt.isReturn then [] else [Stmt.return_ none .synthetic]

end Lss
