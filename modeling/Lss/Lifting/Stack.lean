import Lss.Lifting.Fault
import Lss.Tree.Grouping

/-!
The operand stack with expressions for values: each is what the program text would have computed
it with.
-/
namespace Lss

inductive StackValue where
  | expr (e : Expr)
  /-- A method that was looked up by name. -/
  | method (name : Token)
  /-- What running a constructor left; dropping it completes the object below. -/
  | constructed (type : Token) (arguments : List Expr)
deriving DecidableEq, Repr

/-- The top comes first. -/
abbrev OperandStack := List StackValue

abbrev Stacked := ExceptT DecompileError (StateM OperandStack)

namespace Stacked

def pushValue (v : StackValue) : Stacked Unit := modify (v :: ·)

def push (e : Expr) : Stacked Unit := pushValue (.expr e)

def popValue (place : Nat) : Stacked StackValue := fun
  | [] => (.error (.stackUnderflow place), [])
  | v :: stack => (.ok v, stack)

/-- The expression that a value stands for. An object whose constructor has not run is `new T`. -/
def valueOf (place : Nat) : StackValue → Except DecompileError Expr
  | .expr (.pending type) => .ok (.construct type none .synthetic)
  | .expr e => .ok e
  | .method _ | .constructed _ _ => .error (.danglingValue place)

def pop (place : Nat) : Stacked Expr := fun
  | [] => (.error (.stackUnderflow place), [])
  | v :: stack => (valueOf place v, stack)

def popOnto (acc : List Expr) (place : Nat) : Nat → Stacked (List Expr)
  | 0 => pure acc
  | n + 1 => do
    let e ← pop place
    popOnto (e :: acc) place n

def popMany (n : Nat) (place : Nat) : Stacked (List Expr) := popOnto [] place n

def dup (place : Nat) : Stacked Unit := fun
  | [] => (.error (.stackUnderflow place), [])
  | v :: stack => (.ok (), v :: v :: stack)

def apply (f : Expr → Expr) (place : Nat) : Stacked Unit := do
  let e ← pop place
  push (f e)

/-- Replaces the two topmost by what `f` makes of them, the lower one first. -/
def applyTwo (f : Expr → Expr → Expr) (place : Nat) : Stacked Unit := do
  let right ← pop place
  let left ← pop place
  push (f left right)

def ofExcept {α : Type} : Except DecompileError α → Stacked α
  | .ok a => pure a
  | .error e => throw e

end Stacked

end Lss
