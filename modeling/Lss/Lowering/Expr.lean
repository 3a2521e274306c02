import Lss.Lowering.Draft
import Lss.Lowering.Layout

/-!
Code for expressions. Each leaves exactly one value on the stack. Names and texts that the code
refers to are interned on the way, in the order of evaluation.
-/
namespace Lss

structure Settings where
  major : UInt16 := 4
  minor : UInt16 := 1
  /-- Mark the line of every statement. -/
  lineNumbers : Bool := false
deriving DecidableEq, Repr

structure Declared where
  globals : NameTable
  /-- Parameters of each function. -/
  functions : Std.TreeMap String UInt8
  classes : Std.TreeMap String ClassLayout
  lineNumbers : Bool

structure Env extends Declared where
  owner : Option ClassLayout := none

/-- The tables that code refers to, and warnings, latest first. -/
structure Pool where
  strings : NameTable
  symbols : NameTable
  warnings : List Diagnostic := []

abbrev Lower := ExceptT CompileError (StateM Pool)

namespace Lower

def ofExcept {α : Type} : Except CompileError α → Lower α
  | .ok a => pure a
  | .error e => throw e

def symbol (name : String) : Lower SymbolId := fun ⟨strings, symbols, warnings⟩ =>
  match symbols.intern name with
  | (.ok i, symbols) => (.ok ⟨i⟩, ⟨strings, symbols, warnings⟩)
  | (.error e, symbols) => (.error (.format e), ⟨strings, symbols, warnings⟩)

def string (value : String) : Lower StringId := fun ⟨strings, symbols, warnings⟩ =>
  match strings.intern value with
  | (.ok i, strings) => (.ok ⟨i⟩, ⟨strings, symbols, warnings⟩)
  | (.error e, strings) => (.error (.format e), ⟨strings, symbols, warnings⟩)

def warn (d : Diagnostic) : Lower Unit := modify fun p => { p with warnings := d :: p.warnings }

end Lower

namespace Expr

def isThis : Expr → Bool
  | .variable t => t.kind == .keyword .this
  | _ => false

def name? : Expr → Option String
  | .variable t => if t.kind = .identifier then some t.text else none
  | _ => none

end Expr

namespace Env

/-- The class of the running method, for an expression that needs the object itself. -/
def ownerOf (env : Env) (this : Expr) : Lower ClassLayout :=
  match env.owner with
  | some layout => pure layout
  | none => throw (.invalidThis this.span)

end Env

def namespaceSymbol (e : Expr) : Lower SymbolId :=
  match e.name? with
  | some name => Lower.symbol name
  | none => throw (.invalidNamespace e.span)

def memberSymbol (e : Expr) : Lower SymbolId :=
  match e.name? with
  | some name => Lower.symbol name
  | none => throw (.internal ("malformed member name at " ++ e.span.text))

def checkArity (name : String) (expected found : Nat) (span : Span) : Lower Unit :=
  if expected = found then pure () else throw (.wrongArgumentCount name expected found span)

def lowerLiteral (t : Token) : Lower Code :=
  let orOutOfRange : Option Instruction → Lower Code
    | some i => pure [i]
    | none => throw (.literalOutOfRange t.text t.span)
  match t.kind with
  | .integer => orOutOfRange (Instruction.ofIntegerText? t.text)
  | .float => orOutOfRange ((Binary32.read? t.text.toList).map .pushFloat)
  | .string => do return [.pushString (← Lower.string t.stringValue)]
  | .keyword .true_ => pure [.pushTrue]
  | .keyword .false_ => pure [.pushFalse]
  | .keyword .nothing => pure [.pushNothing]
  | kind => throw (.internal ("unexpected literal " ++ kind.display))

/-- How a name is read is a parameter, because the elements of loops read as whole expressions. -/
def lowerVariable (env : Env) (read : Token → Lower Code) (t : Token) : Lower Code :=
  match t.kind with
  | .keyword .this => do
    let _ ← env.ownerOf (.variable t)
    return [.getVariable (.ofLocal 0)]
  | .identifier => read t
  | kind => throw (.internal (kind.display ++ " used as a variable"))

/-- Accepted, but the object stays as it was created. -/
def constructorNotCalled (type : Token) (span : Span) : Diagnostic where
  severity := .warning
  code := "W001"
  message :=
    "`new " ++ type.text ++ "` does not run the constructor of " ++ type.text ++ "; write `new "
      ++ type.text ++ "(...)`"
  span

/-- How to construct an object: with the parameters of its constructor, or without running one. -/
def planConstruct (env : Env) (type : Token) (arguments : Option Nat) (span : Span) :
    Lower (SymbolId × Bool) := do
  match env.classes[type.text]? with
  | none => throw (.undefinedClass type.text type.span)
  | some layout =>
    let symbol ← Lower.symbol type.text
    match arguments, layout.constructorArity? with
    | some found, some arity =>
      checkArity type.text arity.toNat found span
      return (symbol, true)
    | some found, none =>
      checkArity type.text 0 found span
      return (symbol, false)
    | none, some _ =>
      Lower.warn (constructorNotCalled type span)
      return (symbol, false)
    | none, none => return (symbol, false)

mutual

def lowerExpr (env : Env) (read : Token → Lower Code) : Expr → Lower Code
  | .literal t => lowerLiteral t
  | .variable t => lowerVariable env read t
  | .grouping e => lowerExpr env read e
  | .unary op e _ => do
    let code ← lowerExpr env read e
    match UnaryOp.ofKind? op.kind with
    | some op => return code ++ [Instruction.unary op]
    | none => throw (.internal ("unknown unary operator " ++ op.kind.display))
  | .binary left op right =>
    match op.kind with
    | .access .member => do
      match right with
      | .variable member =>
        match member.kind with
        | .property p => return (← lowerExpr env read left) ++ [Instruction.property p]
        | _ =>
          if left.isThis then
            let _ ← env.ownerOf left
            return [.getThisMember (← memberSymbol right)]
          else
            let symbol ← memberSymbol right
            return (← lowerExpr env read left) ++ [Instruction.getMember symbol]
      | _ => throw (.internal "malformed member access")
    | .access .dynamicMember => do
      let receiver ← lowerExpr env read left
      let name ← lowerExpr env read right
      return receiver ++ name ++ [Instruction.getDynamicMember]
    | .access .scope => do
      let space ← namespaceSymbol left
      return [.getGameVariable space (← memberSymbol right)]
    | .access .dynamicScope => do
      let space ← namespaceSymbol left
      return (← lowerExpr env read right) ++ [Instruction.getDynamicGameVariable space]
    | .binary op => do
      let a ← lowerExpr env read left
      let b ← lowerExpr env read right
      return a ++ b ++ [Instruction.binary op]
    | kind => throw (.internal ("unknown binary operator " ++ kind.display))
  | .index array at_ _ => do
    let a ← lowerExpr env read array
    let i ← lowerExpr env read at_
    return a ++ i ++ [Instruction.getElement]
  | .array elements span => do
    if 65535 < elements.length then throw (.tooManyArguments span)
    return (← lowerAll env read [] elements) ++
      [Instruction.createArray (UInt16.ofNat elements.length)]
  | .call target arguments span => do
    if 255 < arguments.length then throw (.tooManyArguments span)
    let argc := UInt8.ofNat arguments.length
    match target with
    | .variable f =>
      if f.kind ≠ .identifier then throw (.invalidCallTarget f.span)
      match env.functions[f.text]? with
      | none => throw (.undefinedFunction f.text f.span)
      | some arity =>
        checkArity f.text arity.toNat arguments.length span
        return (← lowerAll env read [] arguments) ++ [Instruction.unresolvedCall f.text argc]
    | .binary left op right =>
      match op.kind with
      | .access .member =>
        match right with
        | .variable member =>
          if member.kind ≠ .identifier then throw (.invalidCallTarget target.span)
          if left.isThis then
            let layout ← env.ownerOf left
            match layout.arity? member.text with
            | none => throw (.undefinedFunction member.text member.span)
            | some arity =>
              checkArity member.text arity.toNat arguments.length span
              let method ← Lower.symbol member.text
              return (← lowerAll env read [] arguments) ++ [Instruction.callThisMethod method argc]
          else
            match ArrayOp.ofName? member.text with
            | some op =>
              checkArity member.text op.arity arguments.length span
              let receiver ← lowerExpr env read left
              return receiver ++ (← lowerAll env read [] arguments) ++ [Instruction.array op]
            | none =>
              let method ← Lower.symbol member.text
              let receiver ← lowerExpr env read left
              return receiver ++ [Instruction.dup] ++ (← lowerAll env read [] arguments)
                ++ [Instruction.callMethod method argc]
        | _ => throw (.invalidCallTarget target.span)
      | .access .dynamicMember =>
        let receiver ← lowerExpr env read left
        let name ← lowerExpr env read right
        return receiver ++ [Instruction.dup] ++ name ++ (← lowerAll env read [] arguments)
          ++ [Instruction.callDynamicMethod argc]
      | .access .scope =>
        let space ← namespaceSymbol left
        let name ← memberSymbol right
        return (← lowerAll env read [] arguments) ++ [Instruction.callGameFunction space name argc]
      | .access .dynamicScope =>
        let space ← namespaceSymbol left
        let name ← lowerExpr env read right
        return name ++ (← lowerAll env read [] arguments) ++
          [Instruction.callDynamicGameFunction space argc]
      | _ => throw (.invalidCallTarget target.span)
    | _ => throw (.invalidCallTarget target.span)
  | .construct type none span => do
    let (symbol, _) ← planConstruct env type none span
    return [.createObject symbol]
  | .construct type (some arguments) span => do
    let (symbol, runs) ← planConstruct env type (some arguments.length) span
    if runs then
      return [.createObject symbol, .dup] ++ (← lowerAll env read [] arguments)
        ++ [Instruction.lookupMethod symbol, .callIndirect (UInt8.ofNat arguments.length), .pop]
    else return [.createObject symbol]
  | .pending _ => throw (.internal "pending constructor in source tree")
termination_by structural e => e

/-- Code for expressions one after another; `acc` holds that of earlier ones, in reverse. -/
def lowerAll (env : Env) (read : Token → Lower Code) (acc : Code) : List Expr → Lower Code
  | [] => pure acc.reverse
  | e :: es => do
    let code ← lowerExpr env read e
    lowerAll env read (code.reverse ++ acc) es
termination_by structural es => es

end

def readGlobal (env : Env) (t : Token) : Lower Slot :=
  match env.globals.find? t.text with
  | some i => pure (.ofGlobal i)
  | none => throw (.undefinedVariable t.text t.span)

/-- Code that reads a name from a frame. An element of a loop was bound further in than the names
of its collection are looked up, so this comes to an end. -/
def readFrom (env : Env) (scopes : Scopes) (frame : Nat) (t : Token) : Lower Code :=
  match scopes.resolveFrom t.text frame with
  | none => do return [.getVariable (← readGlobal env t)]
  | some (.slot i) => pure [.getVariable (.ofLocal i)]
  | some (.element collection index outer) =>
    if _h : outer < frame then do
      let code ← lowerExpr env (fun t => readFrom env scopes outer t) collection
      return code ++ [Instruction.getVariable (.ofLocal index), .getElement]
    else throw (.internal "loop element outside its loop")
termination_by frame

def readName (env : Env) (scopes : Scopes) (t : Token) : Lower Code :=
  match scopes.current with
  | some frame => readFrom env scopes frame t
  | none => do return [.getVariable (← readGlobal env t)]

def lower (env : Env) (scopes : Scopes) (e : Expr) : Lower Code :=
  lowerExpr env (readName env scopes) e

end Lss
