import Lss.Lowering.Expr

/-!
Code for statements. Each leaves the stack as it found it. With `c` a condition and the branches
counted in bytes:

    if (c) a            c; ifFalse over a; a
    if (c) a else b     c; ifFalse over a and the next branch; a; always over b; b
    while (c) a         c; ifFalse over a and the next branch; a; always back to c
    do a while (c)      a; c; ifTrue back to a
    foreach (x in e) a  i = 0; m = e.length - 1; while (m >= i) a; i = i + 1

where `x` reads as `e[i]` in `a`, and `i` and `m` have names that no text can spell.
-/
namespace Lss

/-- The mark of a statement's line. Blocks and statements without a place have none. -/
def lineMark (env : Env) (s : Stmt) : Code :=
  if env.lineNumbers && !s.isBlock && !s.span.isSynthetic then
    [.lineNumber (UInt16.ofNat (min s.span.line 65535))]
  else []

abbrev Lowered := Code × Scopes

def marked (env : Env) (s : Stmt) (r : Lowered) : Lowered := (lineMark env s ++ r.1, r.2)

def assignedSlot (env : Env) (scopes : Scopes) (target : Token) : Lower Slot :=
  match scopes.resolve target.text with
  | some (.slot i) => pure (.ofLocal i)
  | some (.element _ _ _) => throw (.notAssignable target.span)
  | none => readGlobal env target

def lowerAssign (env : Env) (scopes : Scopes) (target value : Expr) : Lower Code := do
  match target with
  | .variable t =>
    if t.kind ≠ .identifier then throw (.notAssignable t.span)
    let slot ← assignedSlot env scopes t
    return (← lower env scopes value) ++ [Instruction.setVariable slot]
  | .binary left op right =>
    match op.kind with
    | .access .member =>
      match right.name? with
      | none => throw (.notAssignable target.span)
      | some member =>
        let symbol ← Lower.symbol member
        if left.isThis then
          let _ ← env.ownerOf left
          return (← lower env scopes value) ++ [Instruction.setThisMember symbol]
        else
          let receiver ← lower env scopes left
          return receiver ++ (← lower env scopes value) ++ [Instruction.setMember symbol]
    | .access .dynamicMember =>
      let receiver ← lower env scopes left
      let name ← lower env scopes right
      return receiver ++ name ++ (← lower env scopes value) ++ [Instruction.setDynamicMember]
    | .access .scope =>
      let space ← namespaceSymbol left
      let name ← memberSymbol right
      return (← lower env scopes value) ++ [Instruction.setGameVariable space name]
    | _ => throw (.notAssignable target.span)
  | .index array at_ _ =>
    let a ← lower env scopes array
    let i ← lower env scopes at_
    return a ++ i ++ (← lower env scopes value) ++ [Instruction.setElement]
  | _ => throw (.notAssignable target.span)

def lowerVar (env : Env) (scopes : Scopes) (name : Token) (init : Option Expr) :
    Lower Lowered := do
  let value : Code ←
    match init with
    | some e => lower env scopes e
    | none => pure [.pushNothing]
  match scopes.declare name.text with
  | some (slot, scopes) => return (value ++ [Instruction.setVariable (.ofLocal slot)], scopes)
  | none => throw (.duplicateVariable name.text name.span)

/-- A loop that tests first: `test` leaves the condition, and `body` is run while it holds. -/
def loopCode (test body : Code) (span : Span) : Except CompileError Code := do
  let back ← Branch.backward (test ++ .branch .ifFalse 0 :: body) span
  let out ← Branch.forward (body ++ [Instruction.branch .always back]) span
  return test ++ .branch .ifFalse out :: body ++ [Instruction.branch .always back]

mutual

/-- Code of a statement, its line left out. -/
def lowerStmt (env : Env) (scopes : Scopes) : Stmt → Lower Lowered
  | .block ⟨body, _⟩ => do
    let (code, scopes) ← lowerStmts env [] scopes.enter body
    return (code, scopes.exit)
  | .expr e => do return ((← lower env scopes e) ++ [Instruction.pop], scopes)
  | .var name init => lowerVar env scopes name init
  | .assign target value => do return (← lowerAssign env scopes target value, scopes)
  | .return_ none _ => return ([.pushNothing, .return_], scopes)
  | .return_ (some e) _ => do return ((← lower env scopes e) ++ [Instruction.return_], scopes)
  | .if_ none body _ _ => marked env body <$> lowerStmt env scopes body
  | .if_ (some c) body none span => do
    let test ← lower env scopes c
    let (code, scopes) ← marked env body <$> lowerStmt env scopes body
    let skip ← Lower.ofExcept (Branch.forward code span)
    return (test ++ .branch .ifFalse skip :: code, scopes)
  | .if_ (some c) body (some arm) span => do
    let test ← lower env scopes c
    let (code, scopes) ← marked env body <$> lowerStmt env scopes body
    let skip ← Lower.ofExcept (Branch.forward (code ++ [Instruction.branch .always 0]) span)
    let (armCode, scopes) ← marked env arm <$> lowerStmt env scopes arm
    let skipArm ← Lower.ofExcept (Branch.forward armCode span)
    return (test ++ .branch .ifFalse skip :: code ++ .branch .always skipArm :: armCode, scopes)
  | .while_ c body => do
    let test ← lower env scopes c
    let (code, scopes) ← marked env body <$> lowerStmt env scopes body
    return (← Lower.ofExcept (loopCode test code c.span), scopes)
  | .doWhile body c => do
    let (code, scopes) ← marked env body <$> lowerStmt env scopes body
    let test ← lower env scopes c
    let back ← Lower.ofExcept (Branch.backward (code ++ test) c.span)
    return (code ++ test ++ [Instruction.branch .ifTrue back], scopes)
  | .foreach element collection body => do
    let span := element.span + collection.span
    let (index, scopes) := scopes.enter.declareHidden "index"
    let (last, scopes) := scopes.declareHidden "max"
    let i := Slot.ofLocal index
    let m := Slot.ofLocal last
    let items ← lower env scopes collection
    match scopes.enclosing with
    | none => throw (.internal "foreach outside a subroutine frame")
    | some frame =>
      match scopes.bind element.text (.element collection i.index frame) with
      | none => throw (.duplicateVariable element.text element.span)
      | some scopes =>
        let (code, scopes) ← marked env body <$> lowerStmt env scopes body
        let advance : Code := [.getVariable i, .pushInt8 1, .binary .add, .setVariable i]
        let test : Code := [.getVariable m, .getVariable i, .binary .greaterEqual]
        let loop ← Lower.ofExcept (loopCode test (code ++ advance) span)
        let setup : Code :=
          [.pushZero, .setVariable i] ++ items
            ++ [Instruction.property .length, .pushInt8 1, .binary .sub, .setVariable m]
        return (setup ++ loop, scopes.exit)
  | .classDecl _ | .property _ | .subroutine _ | .global _ =>
    throw (.internal "declaration inside a subroutine body")
termination_by structural s => s

/-- Code of statements one after another; `acc` holds that of earlier ones, in reverse. -/
def lowerStmts (env : Env) (acc : Code) (scopes : Scopes) : List Stmt → Lower Lowered
  | [] => pure (acc.reverse, scopes)
  | s :: ss => do
    let (code, scopes) ← marked env s <$> lowerStmt env scopes s
    lowerStmts env (code.reverse ++ acc) scopes ss
termination_by structural ss => ss

end

/-- The whole body of a function or, in an environment with an owner, of a method. The body shares
the frame of the parameters. -/
def lowerSubroutine (env : Env) (s : Subroutine) : Lower Code := do
  let draft ← Lower.ofExcept (Draft.start s.name.text s.parameters env.owner.isSome)
  let (code, scopes) ← lowerStmts env [] draft.scopes s.body.statements
  let endsInReturn := s.body.statements.getLast?.any Stmt.isReturn
  Lower.ofExcept ({ draft with code := code.toArray, scopes }.finish endsInReturn s.name.span)

end Lss
