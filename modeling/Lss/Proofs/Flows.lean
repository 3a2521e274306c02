import Lss.Proofs.Introduced
import Lss.Proofs.Skeleton

/-!
# Control flow with loops over collections

What is left of statements when their expressions are forgotten and loops over collections are kept
for what they are. Such loops may be found in statements that spell them out, and none is lost.
-/
namespace Lss

inductive Flow where
  | expr
  | assign
  | return_
  | if_ (body arm : List Flow)
  | while_ (body : List Flow)
  | doWhile (body : List Flow)
  | foreach (body : List Flow)
deriving Repr

namespace Flow

mutual

/-- The skeleton has the statements that a loop over a collection stands for. -/
def skeleton : Flow → List Skeleton
  | .expr => [.expr]
  | .assign => [.assign]
  | .return_ => [.return_]
  | .if_ body arm => [.if_ (skeletons body) (skeletons arm)]
  | .while_ body => [.while_ (skeletons body)]
  | .doWhile body => [.doWhile (skeletons body)]
  | .foreach body => [.assign, .assign, .while_ (skeletons body ++ [Skeleton.assign])]

def skeletons : List Flow → List Skeleton
  | [] => []
  | x :: xs => skeleton x ++ skeletons xs

end

@[simp] theorem skeletons_append (a b : List Flow) :
    skeletons (a ++ b) = skeletons a ++ skeletons b := by
  induction a with
  | nil => rfl
  | cons x a ih => simp [skeletons, ih]

/-- Every loop over a collection stays one in its place. Others may be made of statements that spell
them out. -/
inductive Folds : List Flow → List Flow → Prop
  | nil : Folds [] []
  | expr {a b} : Folds a b → Folds (.expr :: a) (.expr :: b)
  | assign {a b} : Folds a b → Folds (.assign :: a) (.assign :: b)
  | return_ {a b} : Folds a b → Folds (.return_ :: a) (.return_ :: b)
  | if_ {x x' y y' a b} : Folds x x' → Folds y y' → Folds a b →
      Folds (.if_ x y :: a) (.if_ x' y' :: b)
  | while_ {x x' a b} : Folds x x' → Folds a b → Folds (.while_ x :: a) (.while_ x' :: b)
  | doWhile {x x' a b} : Folds x x' → Folds a b → Folds (.doWhile x :: a) (.doWhile x' :: b)
  | foreach {x x' a b} : Folds x x' → Folds a b → Folds (.foreach x :: a) (.foreach x' :: b)
  | found {x x' a b} : Folds x x' → Folds a b →
      Folds (.assign :: .assign :: .while_ (x ++ [Flow.assign]) :: a) (.foreach x' :: b)

theorem Folds.append {a b x y : List Flow} (h : Folds a b) (k : Folds x y) :
    Folds (a ++ x) (b ++ y) := by
  induction h with
  | nil => exact k
  | expr _ ih => exact .expr ih
  | assign _ ih => exact .assign ih
  | return_ _ ih => exact .return_ ih
  | if_ hx hy _ _ _ ih => exact .if_ hx hy ih
  | while_ hx _ _ ih => exact .while_ hx ih
  | doWhile hx _ _ ih => exact .doWhile hx ih
  | foreach hx _ _ ih => exact .foreach hx ih
  | found hx _ _ ih => exact .found hx ih

end Flow

namespace Stmt

mutual

def flow : Stmt → List Flow
  | .block ⟨body, _⟩ => flows body
  | .expr _ => [.expr]
  | .var _ _ | .assign _ _ => [.assign]
  | .return_ _ _ => [.return_]
  -- the arm of an `else`, which is no statement of its own
  | .if_ none body _ _ => flow body
  | .if_ (some _) body none _ => [.if_ (flow body) []]
  | .if_ (some _) body (some arm) _ => [.if_ (flow body) (flow arm)]
  | .while_ _ body => [.while_ (flow body)]
  | .doWhile body _ => [.doWhile (flow body)]
  | .foreach _ _ body => [.foreach (flow body)]
  | .classDecl _ | .property _ | .subroutine _ | .global _ => []

def flows : List Stmt → List Flow
  | [] => []
  | s :: ss => flow s ++ flows ss

end

@[simp] theorem flows_append (a b : List Stmt) : flows (a ++ b) = flows a ++ flows b := by
  induction a with
  | nil => rfl
  | cons s a ih => simp [flows, ih]

theorem flows_reverse_cons (s : Stmt) (acc : List Stmt) :
    flows (s :: acc).reverse = flows acc.reverse ++ s.flow := by
  rw [List.reverse_cons, flows_append, flows, flows, List.append_nil]

mutual

theorem skeleton_flow : (s : Stmt) → Flow.skeletons s.flow = s.skeleton
  | .block ⟨body, _⟩ => by rw [flow, skeleton, skeletons_flows body]
  | .if_ none body (some _) _ | .if_ none body none _ => by
    rw [flow, skeleton, skeleton_flow body]
  | .if_ (some _) body none _ => by
    rw [flow, skeleton, Flow.skeletons, Flow.skeleton, skeleton_flow body]
    rfl
  | .if_ (some _) body (some arm) _ => by
    rw [flow, skeleton, Flow.skeletons, Flow.skeleton, skeleton_flow body, skeleton_flow arm]
    rfl
  | .while_ _ body => by
    rw [flow, skeleton, Flow.skeletons, Flow.skeleton, skeleton_flow body]
    rfl
  | .doWhile body _ => by
    rw [flow, skeleton, Flow.skeletons, Flow.skeleton, skeleton_flow body]
    rfl
  | .foreach _ _ body => by
    rw [flow, skeleton, Flow.skeletons, Flow.skeleton, skeleton_flow body]
    rfl
  | .expr _ | .return_ _ _ | .assign _ _ | .var _ _ | .classDecl _ | .property _ | .subroutine _
  | .global _ => rfl

theorem skeletons_flows : (ss : List Stmt) → Flow.skeletons (flows ss) = skeletons ss
  | [] => rfl
  | s :: ss => by
    rw [flows, skeletons, Flow.skeletons_append, skeleton_flow s, skeletons_flows ss]

end

mutual

theorem flow_replace (f : Expr → Option Expr) : (s : Stmt) → (s.replace f).flow = s.flow
  | .block ⟨body, _⟩ => by
    rw [replace, flow, flows_replaceAll f [] body, flow]
    rfl
  | .if_ none body (some arm) _ | .if_ none body none _ => by
    rw [replace, Option.map_none, flow, flow_replace f body, flow]
  | .if_ (some _) body (some arm) _ => by
    rw [replace, Option.map_some, flow, flow_replace f body, flow_replace f arm, flow]
  | .if_ (some _) body none _ => by rw [replace, Option.map_some, flow, flow_replace f body, flow]
  | .while_ _ body => by rw [replace, flow, flow_replace f body, flow]
  | .doWhile body _ => by rw [replace, flow, flow_replace f body, flow]
  | .foreach _ _ body => by rw [replace, flow, flow_replace f body, flow]
  | .expr _ | .return_ _ _ | .assign _ _ | .var _ _ | .classDecl _ | .property _
  | .subroutine _ | .global _ => rfl

theorem flows_replaceAll (f : Expr → Option Expr) (acc : List Stmt) :
    (ss : List Stmt) → flows (replaceAll f acc ss) = flows acc.reverse ++ flows ss
  | [] => by rw [replaceAll, flows, List.append_nil]
  | s :: ss => by
    rw [replaceAll, flows_replaceAll f _ ss, flows_reverse_cons, flow_replace f s, flows,
      List.append_assoc]

end

end Stmt

/-! What comes after folding keeps all loops. -/

namespace Tidy

theorem dropReturn_flows (body : List Stmt) :
    Stmt.flows (dropReturn body) = Stmt.flows body ∨
      Stmt.flows (dropReturn body) ++ [Flow.return_] = Stmt.flows body := by
  unfold dropReturn
  split
  · next span hlast =>
    obtain ⟨front, rfl⟩ := List.getLast?_eq_some_iff.mp hlast
    rw [List.dropLast_concat, Stmt.flows_append]
    exact .inr rfl
  · exact .inl rfl

theorem declareOnto_flows (l : Locals) (acc ss : List Stmt) :
    Stmt.flows (declareOnto l acc ss).1 = Stmt.flows acc.reverse ++ Stmt.flows ss := by
  induction ss generalizing l acc with
  | nil => rw [declareOnto, Stmt.flows, List.append_nil]
  | cons s ss ih =>
    rw [declareOnto]
    split
    · next name init hd =>
      have hs : s.flow = [.assign] := by
        cases s with
        | assign t v => rfl
        | _ => cases hd
      rw [ih, Stmt.flows_reverse_cons, Stmt.flows, hs, List.append_assoc]
      rfl
    · rw [ih, Stmt.flows_reverse_cons, Stmt.flows, List.append_assoc]

theorem declareLocals_flows (body : List Stmt) :
    ∃ n, Stmt.flows (declareLocals body) = List.replicate n Flow.assign ++ Stmt.flows body := by
  have hhoisted (names : List String) :
      Stmt.flows (names.map fun name => .var (.identifier name) none)
        = List.replicate names.length .assign := by
    induction names with
    | nil => rfl
    | cons name names ih => rw [List.map_cons, Stmt.flows, ih]; rfl
  refine ⟨(declareOnto {} [] body).2.hoisted.reverse.length, ?_⟩
  unfold declareLocals
  dsimp only
  rw [Stmt.flows_append, hhoisted, declareOnto_flows]
  rfl

theorem renameLocals_flows (body : List Stmt) :
    Stmt.flows (renameLocals body) = Stmt.flows body := by
  have honto (names : Renaming) (acc ss : List Stmt) :
      Stmt.flows (renameOnto names acc ss).1 = Stmt.flows acc.reverse ++ Stmt.flows ss := by
    induction ss generalizing names acc with
    | nil => rw [renameOnto, Stmt.flows, List.append_nil]
    | cons s ss ih =>
      by_cases hvar : ∃ name init, s = .var name init
      · obtain ⟨name, init, rfl⟩ := hvar
        rw [renameOnto]
        split <;> rw [ih, Stmt.flows_reverse_cons, List.append_assoc] <;> rfl
      · rw [renameOnto_other fun name init h => hvar ⟨name, init, h⟩, ih,
          Stmt.flows_reverse_cons, List.append_assoc, ← Stmt.flows]
  unfold renameLocals
  dsimp only
  rw [Stmt.flows_replaceAll, honto]
  rfl

end Tidy

/-- Declarations in front and a `return` at the end come and go when a folded body is made tidy. -/
theorem tidy_flows (ss : List Stmt) : ∃ n, ∃ last ∈ [[], [Flow.return_]],
    Stmt.flows (tidy ss) ++ last = List.replicate n Flow.assign ++
      Stmt.flows (Tidy.foldLoops 0 [] ss).1 := by
  obtain ⟨n, hn⟩ := Tidy.declareLocals_flows (Tidy.dropReturn (Tidy.foldLoops 0 [] ss).1)
  rw [tidy, Tidy.renameLocals_flows, hn]
  rcases Tidy.dropReturn_flows (Tidy.foldLoops 0 [] ss).1 with h | h
  · exact ⟨n, [], by simp, by rw [h, List.append_nil]⟩
  · exact ⟨n, [.return_], by simp, by rw [List.append_assoc, h]⟩

end Lss
