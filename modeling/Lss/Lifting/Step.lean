import Lss.Container.Basic
import Lss.Lifting.Stack

/-!
What each instruction that does not branch does to the stack of expressions, and the statement
that it completes, if any.
-/
namespace Lss

/-- How local slots are named: parameters by their number, other locals by their slot, behind a
sign that no name of a program starts with. -/
structure SlotNames where
  isMethod : Bool := false
  parameterCount : UInt8 := 0
deriving DecidableEq, Repr

namespace SlotNames

def first (names : SlotNames) : Nat := names.isMethod.toNat

def token (names : SlotNames) (slot : Nat) : Token :=
  if names.isMethod && slot == 0 then .of (.keyword .this)
  else if names.first ≤ slot ∧ slot < names.first + names.parameterCount.toNat then
    .identifier ("param" ++ toString (slot - names.first + 1))
  else .identifier ("$" ++ toString slot)

def parameters (names : SlotNames) : List Token :=
  (List.range names.parameterCount.toNat).map fun p => names.token (names.first + p)

end SlotNames

structure Library where
  container : Container
  functionAt : Std.TreeMap Nat String

namespace Library

/-- Of several functions that start at one place, the first counts. -/
def ofContainer (c : Container) : Library where
  container := c
  functionAt := (c.functions.zip c.functionOffsets).foldl
    (fun m (f, offset) => m.insertIfNew offset f.name) {}

def symbol (l : Library) (s : SymbolId) : Stacked String :=
  match l.container.symbol s with
  | .ok name => pure name
  | .error e => throw (.format e)

def string (l : Library) (s : StringId) : Stacked String :=
  match l.container.strings.resolve .strings s.index with
  | .ok value => pure value
  | .error e => throw (.format e)

def slot (l : Library) (names : SlotNames) (s : Slot) : Stacked Expr :=
  if s.isGlobal then
    match l.container.globals.resolve .globals s.index with
    | .ok name => pure (.name name)
    | .error e => throw (.format e)
  else pure (.variable (names.token s.index.toNat))

def inSpace (l : Library) (space : SymbolId) (op : AccessOp) (right : Expr) : Stacked Expr := do
  return (Expr.name (← l.symbol space)).ofAccess (.access op) right

def function (l : Library) (target : UInt32) : Stacked String :=
  match l.functionAt[target.toNat]? with
  | some name => pure name
  | none => throw (.unknownCallTarget target)

end Library

def Expr.ofCall (target : Expr) (arguments : List Expr) : Expr := .call target arguments .synthetic

def Expr.ofIndex (array at_ : Expr) : Expr := .index array.receiver at_ .synthetic

def Stmt.ofReturn (value : Expr) : Stmt :=
  match value with
  | .literal t => .return_ (if t.kind = .keyword .nothing then none else some value) .synthetic
  | _ => .return_ (some value) .synthetic

def step (l : Library) (names : SlotNames) (i : Instruction) (place : Nat) :
    Stacked (Option Stmt) := do
  match i with
  | .binary op => Stacked.applyTwo (·.ofBinary (.binary op) ·) place; return none
  | .property p =>
    Stacked.apply (·.ofAccess (.access .member) (.variable (.of (.property p)))) place
    return none
  | .array op =>
    let arguments ← Stacked.popMany op.arity place
    Stacked.apply (fun receiver => (receiver.ofMember op.name).ofCall arguments) place
    return none
  | .pushNothing => Stacked.push (.literal (.of (.keyword .nothing))); return none
  | .pushTrue => Stacked.push (.literal (.of (.keyword .true_))); return none
  | .pushFalse => Stacked.push (.literal (.of (.keyword .false_))); return none
  | .pushZero => Stacked.push (.literal (.integer 0)); return none
  | .pushInt8 v => Stacked.push (.literal (.integer v.toInt)); return none
  | .pushInt16 v => Stacked.push (.literal (.integer v.toInt)); return none
  | .pushInt32 v => Stacked.push (.literal (.integer v.toInt)); return none
  | .pushFloat v => Stacked.push (.literal (.float v)); return none
  | .pushString s => Stacked.push (.literal (.string (← l.string s))); return none
  | .getVariable s => Stacked.push (← l.slot names s); return none
  | .setVariable s =>
    let value ← Stacked.pop place
    return some (.assign (← l.slot names s) value)
  | .getMember m =>
    let receiver ← Stacked.pop place
    Stacked.push (receiver.ofMember (← l.symbol m))
    return none
  | .setMember m =>
    let value ← Stacked.pop place
    let receiver ← Stacked.pop place
    return some (.assign (receiver.ofMember (← l.symbol m)) value)
  | .getThisMember m => Stacked.push (Expr.this.ofMember (← l.symbol m)); return none
  | .setThisMember m =>
    let value ← Stacked.pop place
    return some (.assign (Expr.this.ofMember (← l.symbol m)) value)
  | .getDynamicMember =>
    Stacked.applyTwo (·.ofAccess (.access .dynamicMember) ·) place
    return none
  | .setDynamicMember =>
    let value ← Stacked.pop place
    let name ← Stacked.pop place
    let receiver ← Stacked.pop place
    return some (.assign (receiver.ofAccess (.access .dynamicMember) name) value)
  | .getGameVariable space name =>
    let name ← l.symbol name
    Stacked.push (← l.inSpace space .scope (.name name))
    return none
  | .setGameVariable space name =>
    let value ← Stacked.pop place
    let name ← l.symbol name
    return some (.assign (← l.inSpace space .scope (.name name)) value)
  | .getDynamicGameVariable space =>
    let name ← Stacked.pop place
    Stacked.push (← l.inSpace space .dynamicScope name)
    return none
  | .getElement => Stacked.applyTwo Expr.ofIndex place; return none
  | .setElement =>
    let value ← Stacked.pop place
    let at_ ← Stacked.pop place
    let array ← Stacked.pop place
    return some (.assign (array.ofIndex at_) value)
  | .createArray n =>
    let elements ← Stacked.popMany n.toNat place
    Stacked.push (.array elements .synthetic)
    return none
  | .unary op => Stacked.apply (Expr.ofUnary op.kind) place; return none
  | .callFunction target argc =>
    let f ← l.function target
    let arguments ← Stacked.popMany argc.toNat place
    Stacked.push ((Expr.name f).ofCall arguments)
    return none
  | .callGameFunction space name argc =>
    let arguments ← Stacked.popMany argc.toNat place
    let name ← l.symbol name
    Stacked.push ((← l.inSpace space .scope (.name name)).ofCall arguments)
    return none
  | .callDynamicGameFunction space argc =>
    let arguments ← Stacked.popMany argc.toNat place
    let name ← Stacked.pop place
    Stacked.push ((← l.inSpace space .dynamicScope name).ofCall arguments)
    return none
  | .callMethod m argc =>
    let arguments ← Stacked.popMany argc.toNat place
    let _copy ← Stacked.pop place
    let receiver ← Stacked.pop place
    Stacked.push ((receiver.ofMember (← l.symbol m)).ofCall arguments)
    return none
  | .callThisMethod m argc =>
    let arguments ← Stacked.popMany argc.toNat place
    Stacked.push ((Expr.this.ofMember (← l.symbol m)).ofCall arguments)
    return none
  | .callDynamicMethod argc =>
    let arguments ← Stacked.popMany argc.toNat place
    let name ← Stacked.pop place
    let _copy ← Stacked.pop place
    let receiver ← Stacked.pop place
    Stacked.push ((receiver.ofAccess (.access .dynamicMember) name).ofCall arguments)
    return none
  | .createObject type => Stacked.push (.pending (.identifier (← l.symbol type))); return none
  | .lookupMethod m => Stacked.pushValue (.method (.identifier (← l.symbol m))); return none
  | .callIndirect argc =>
    match ← Stacked.popValue place with
    | .method method =>
      let arguments ← Stacked.popMany argc.toNat place
      match ← Stacked.popValue place with
      | .expr (.pending type) =>
        if type.text = method.text then
          Stacked.pushValue (.constructed type arguments)
          return none
        else throw (.unexpected i place)
      | _ => throw (.unexpected i place)
    | _ => throw (.unexpected i place)
  | .pop =>
    match ← Stacked.popValue place with
    | .constructed type arguments =>
      match ← get with
      | .expr (.pending _) :: stack =>
        set (StackValue.expr (.construct type (some arguments) .synthetic) :: stack)
        return none
      | _ => throw (.unexpected i place)
    | .expr (.pending type) => return some (.expr (.construct type none .synthetic))
    | .expr e => return some (.expr e)
    | .method _ => throw (.danglingValue place)
  | .dup => Stacked.dup place; return none
  | .return_ =>
    let value ← Stacked.pop place
    return some (.ofReturn value)
  | .lineNumber _ => return none
  | .branch _ _ | .allocateLocals _ | .checkArgumentCount _ | .unresolvedCall _ _ =>
    throw (.unexpected i place)

end Lss
