import Lss.Tree.Basic

/-!
Expressions of a tree, one after another: an expression comes before its parts, and parts come in
the order in which they stand in the text.
-/
namespace Lss

namespace Expr

mutual

def fold {β : Type} (f : β → Expr → β) (b : β) : Expr → β
  | .grouping e => fold f (f b (.grouping e)) e
  | .unary op e leads => fold f (f b (.unary op e leads)) e
  | .binary l op r => fold f (fold f (f b (.binary l op r)) l) r
  | .index a i s => fold f (fold f (f b (.index a i s)) a) i
  | .array es s => foldAll f (f b (.array es s)) es
  | .call t es s => foldAll f (fold f (f b (.call t es s)) t) es
  | .construct t (some es) s => foldAll f (f b (.construct t (some es) s)) es
  | .construct t none s => f b (.construct t none s)
  | .literal t => f b (.literal t)
  | .variable t => f b (.variable t)
  | .pending t => f b (.pending t)
termination_by structural e => e

def foldAll {β : Type} (f : β → Expr → β) (b : β) : List Expr → β
  | [] => b
  | e :: es => foldAll f (fold f b e) es
termination_by structural es => es

end

def any (p : Expr → Bool) (e : Expr) : Bool := e.fold (fun found e => found || p e) false

mutual

def replace (f : Expr → Option Expr) : Expr → Expr
  | .grouping e => (f (.grouping e)).getD (.grouping (replace f e))
  | .unary op e leads => (f (.unary op e leads)).getD (.unary op (replace f e) leads)
  | .binary l op r => (f (.binary l op r)).getD (.binary (replace f l) op (replace f r))
  | .index a i s => (f (.index a i s)).getD (.index (replace f a) (replace f i) s)
  | .array es s => (f (.array es s)).getD (.array (replaceAll f [] es) s)
  | .call t es s => (f (.call t es s)).getD (.call (replace f t) (replaceAll f [] es) s)
  | .construct t (some es) s =>
    (f (.construct t (some es) s)).getD (.construct t (some (replaceAll f [] es)) s)
  | .construct t none s => (f (.construct t none s)).getD (.construct t none s)
  | .literal t => (f (.literal t)).getD (.literal t)
  | .variable t => (f (.variable t)).getD (.variable t)
  | .pending t => (f (.pending t)).getD (.pending t)
termination_by structural e => e

def replaceAll (f : Expr → Option Expr) (acc : List Expr) : List Expr → List Expr
  | [] => acc.reverse
  | e :: es => replaceAll f (replace f e :: acc) es
termination_by structural es => es

end

end Expr

namespace Stmt

mutual

def fold {β : Type} (f : β → Expr → β) (b : β) : Stmt → β
  | .block ⟨body, _⟩ => foldAll f b body
  | .expr e => e.fold f b
  | .return_ (some e) _ => e.fold f b
  | .return_ none _ => b
  | .if_ c body otherwise _ =>
    let b := fold f ((c.map (·.fold f b)).getD b) body
    match otherwise with
    | some arm => fold f b arm
    | none => b
  | .while_ c body => fold f (c.fold f b) body
  | .doWhile body c => c.fold f (fold f b body)
  | .foreach _ c body => fold f (c.fold f b) body
  | .assign t v => v.fold f (t.fold f b)
  | .var _ (some e) => e.fold f b
  | .var _ none => b
  | .classDecl _ | .property _ | .subroutine _ | .global _ => b
termination_by structural s => s

def foldAll {β : Type} (f : β → Expr → β) (b : β) : List Stmt → β
  | [] => b
  | s :: ss => foldAll f (fold f b s) ss
termination_by structural ss => ss

end

def anyExpr (p : Expr → Bool) (ss : List Stmt) : Bool :=
  foldAll (fun found e => found || p e) false ss

mutual

def replace (f : Expr → Option Expr) : Stmt → Stmt
  | .block ⟨body, span⟩ => .block ⟨replaceAll f [] body, span⟩
  | .expr e => .expr (e.replace f)
  | .return_ value span => .return_ (value.map (·.replace f)) span
  | .if_ c body (some arm) span =>
    .if_ (c.map (·.replace f)) (replace f body) (some (replace f arm)) span
  | .if_ c body none span => .if_ (c.map (·.replace f)) (replace f body) none span
  | .while_ c body => .while_ (c.replace f) (replace f body)
  | .doWhile body c => .doWhile (replace f body) (c.replace f)
  | .foreach x c body => .foreach x (c.replace f) (replace f body)
  | .assign t v => .assign (t.replace f) (v.replace f)
  | .var name init => .var name (init.map (·.replace f))
  | .classDecl d => .classDecl d
  | .property name => .property name
  | .subroutine s => .subroutine s
  | .global name => .global name
termination_by structural s => s

def replaceAll (f : Expr → Option Expr) (acc : List Stmt) : List Stmt → List Stmt
  | [] => acc.reverse
  | s :: ss => replaceAll f (replace f s :: acc) ss
termination_by structural ss => ss

end

mutual

def assignsTo (p : Expr → Bool) : Stmt → Bool
  | .assign t _ => p t
  | .block ⟨body, _⟩ => anyAssignsTo p body
  | .if_ _ body (some arm) _ => assignsTo p body || assignsTo p arm
  | .if_ _ body none _ => assignsTo p body
  | .while_ _ body | .doWhile body _ | .foreach _ _ body => assignsTo p body
  | _ => false
termination_by structural s => s

def anyAssignsTo (p : Expr → Bool) : List Stmt → Bool
  | [] => false
  | s :: ss => assignsTo p s || anyAssignsTo p ss
termination_by structural ss => ss

end

mutual

/-- How many statements, and lists of them, stand in a statement, itself included. -/
def weight : Stmt → Nat
  | .block ⟨body, _⟩ => 1 + weightAll body
  | .if_ _ body (some arm) _ => 1 + weight body + weight arm
  | .if_ _ body none _ => 1 + weight body
  | .while_ _ body | .doWhile body _ | .foreach _ _ body => 1 + weight body
  | _ => 1
termination_by structural s => s

def weightAll : List Stmt → Nat
  | [] => 1
  | s :: ss => 1 + weight s + weightAll ss
termination_by structural ss => ss

end

theorem weightAll_reverseAux (xs ys : List Stmt) :
    weightAll (xs.reverseAux ys) + 1 = weightAll xs + weightAll ys := by
  induction xs generalizing ys with
  | nil => simp [weightAll, Nat.add_comm]
  | cons x xs ih => simp only [List.reverseAux_cons, ih, weightAll]; omega

theorem weightAll_append (xs ys : List Stmt) :
    weightAll (xs ++ ys) + 1 = weightAll xs + weightAll ys := by
  induction xs with
  | nil => simp [weightAll, Nat.add_comm]
  | cons x xs ih => simp only [List.cons_append, weightAll]; omega

mutual

/-- To replace expressions is not to change statements. -/
theorem weight_replace (f : Expr → Option Expr) : (s : Stmt) → (s.replace f).weight = s.weight
  | .block ⟨body, _⟩ => by
    have := weightAll_replaceAll f [] body
    simp only [weightAll] at this
    simp only [replace, weight]
    omega
  | .if_ _ body (some arm) _ => by
    simp [replace, weight, weight_replace f body, weight_replace f arm]
  | .if_ _ body none _ => by simp [replace, weight, weight_replace f body]
  | .while_ _ body => by simp [replace, weight, weight_replace f body]
  | .doWhile body _ => by simp [replace, weight, weight_replace f body]
  | .foreach _ _ body => by simp [replace, weight, weight_replace f body]
  | .expr _ | .return_ _ _ | .assign _ _ | .var _ _ | .classDecl _ | .property _
  | .subroutine _ | .global _ => rfl

theorem weightAll_replaceAll (f : Expr → Option Expr) (acc : List Stmt) :
    (ss : List Stmt) → weightAll (replaceAll f acc ss) + 1 = weightAll acc + weightAll ss
  | [] => weightAll_reverseAux acc []
  | s :: ss => by
    have := weightAll_replaceAll f (replace f s :: acc) ss
    simp only [weightAll, weight_replace f s] at this
    simp only [replaceAll, weightAll]
    omega

end

end Stmt

end Lss
