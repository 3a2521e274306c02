import Lss.Lowering.Stmt

/-!
# Lowering over any way of keeping names

What lowering does with names is a handful of steps: it reads and declares them, and it opens
frames. Here it is written over those steps, in any computations that fill a pool among other
things. Whatever relates the steps of some way of keeping names to those of the chain of frames
relates all of lowering.
-/
namespace Lss

open Lower

section

variable {m : Type → Type} [Monad m] [MonadLiftT Lower m] [MonadExcept CompileError m]

mutual

def exprOver (env : Env) (read : Token → m Code) : Expr → m Code
  | .literal t => liftM (lowerLiteral t)
  | .variable t =>
    match t.kind with
    | .keyword .this => do
      let _ ← liftM (env.ownerOf (.variable t))
      return [.getVariable (.ofLocal 0)]
    | .identifier => read t
    | kind => throw (.internal (kind.display ++ " used as a variable"))
  | .grouping e => exprOver env read e
  | .unary op e _ => do
    let code ← exprOver env read e
    match UnaryOp.ofKind? op.kind with
    | some op => return code ++ [Instruction.unary op]
    | none => throw (.internal ("unknown unary operator " ++ op.kind.display))
  | .binary left op right =>
    match op.kind with
    | .access .member => do
      match right with
      | .variable member =>
        match member.kind with
        | .property p => return (← exprOver env read left) ++ [Instruction.property p]
        | _ =>
          if left.isThis then
            let _ ← liftM (env.ownerOf left)
            return [.getThisMember (← liftM (memberSymbol right))]
          else
            let symbol ← liftM (memberSymbol right)
            return (← exprOver env read left) ++ [Instruction.getMember symbol]
      | _ => throw (.internal "malformed member access")
    | .access .dynamicMember => do
      let receiver ← exprOver env read left
      let name ← exprOver env read right
      return receiver ++ name ++ [Instruction.getDynamicMember]
    | .access .scope => do
      let space ← liftM (namespaceSymbol left)
      return [.getGameVariable space (← liftM (memberSymbol right))]
    | .access .dynamicScope => do
      let space ← liftM (namespaceSymbol left)
      return (← exprOver env read right) ++ [Instruction.getDynamicGameVariable space]
    | .binary op => do
      let a ← exprOver env read left
      let b ← exprOver env read right
      return a ++ b ++ [Instruction.binary op]
    | kind => throw (.internal ("unknown binary operator " ++ kind.display))
  | .index array at_ _ => do
    let a ← exprOver env read array
    let i ← exprOver env read at_
    return a ++ i ++ [Instruction.getElement]
  | .array elements span => do
    if 65535 < elements.length then throw (.tooManyArguments span)
    return (← allOver env read [] elements) ++
      [Instruction.createArray (UInt16.ofNat elements.length)]
  | .call target arguments span => do
    if 255 < arguments.length then throw (.tooManyArguments span)
    let argc := UInt8.ofNat arguments.length
    match target with
    | .variable f =>
      if f.kind ≠ .identifier then throw (.invalidCallTarget f.span)
      match env.functions[f.text]? with
      | none => throw (.undefinedFunction f.text f.span)
      | some arity =>
        liftM (checkArity f.text arity.toNat arguments.length span)
        return (← allOver env read [] arguments) ++ [Instruction.unresolvedCall f.text argc]
    | .binary left op right =>
      match op.kind with
      | .access .member =>
        match right with
        | .variable member =>
          if member.kind ≠ .identifier then throw (.invalidCallTarget target.span)
          if left.isThis then
            let layout ← liftM (env.ownerOf left)
            match layout.arity? member.text with
            | none => throw (.undefinedFunction member.text member.span)
            | some arity =>
              liftM (checkArity member.text arity.toNat arguments.length span)
              let method ← liftM (Lower.symbol member.text)
              return (← allOver env read [] arguments) ++ [Instruction.callThisMethod method argc]
          else
            match ArrayOp.ofName? member.text with
            | some op =>
              liftM (checkArity member.text op.arity arguments.length span)
              let receiver ← exprOver env read left
              return receiver ++ (← allOver env read [] arguments) ++ [Instruction.array op]
            | none =>
              let method ← liftM (Lower.symbol member.text)
              let receiver ← exprOver env read left
              return receiver ++ [Instruction.dup] ++ (← allOver env read [] arguments)
                ++ [Instruction.callMethod method argc]
        | _ => throw (.invalidCallTarget target.span)
      | .access .dynamicMember =>
        let receiver ← exprOver env read left
        let name ← exprOver env read right
        return receiver ++ [Instruction.dup] ++ name ++ (← allOver env read [] arguments)
          ++ [Instruction.callDynamicMethod argc]
      | .access .scope =>
        let space ← liftM (namespaceSymbol left)
        let name ← liftM (memberSymbol right)
        return (← allOver env read [] arguments) ++ [Instruction.callGameFunction space name argc]
      | .access .dynamicScope =>
        let space ← liftM (namespaceSymbol left)
        let name ← exprOver env read right
        return name ++ (← allOver env read [] arguments)
          ++ [Instruction.callDynamicGameFunction space argc]
      | _ => throw (.invalidCallTarget target.span)
    | _ => throw (.invalidCallTarget target.span)
  | .construct type none span => do
    let (symbol, _) ← liftM (planConstruct env type none span)
    return [.createObject symbol]
  | .construct type (some arguments) span => do
    let (symbol, runs) ← liftM (planConstruct env type (some arguments.length) span)
    if runs then
      return [.createObject symbol, .dup] ++ (← allOver env read [] arguments)
        ++ [Instruction.lookupMethod symbol, .callIndirect (UInt8.ofNat arguments.length), .pop]
    else return [.createObject symbol]
  | .pending _ => throw (.internal "pending constructor in source tree")
termination_by structural e => e

/-- Code for expressions one after another; `acc` holds that of earlier ones, in reverse. -/
def allOver (env : Env) (read : Token → m Code) (acc : Code) : List Expr → m Code
  | [] => pure acc.reverse
  | e :: es => do
    let code ← exprOver env read e
    allOver env read (code.reverse ++ acc) es
termination_by structural es => es

end

/-- Code for an assignment, where finding a slot may be any computation too. -/
def assignOver (env : Env) (read : Token → m Code) (assigned : Token → m Slot)
    (target value : Expr) : m Code := do
  match target with
  | .variable t =>
    if t.kind ≠ .identifier then throw (.notAssignable t.span)
    let slot ← assigned t
    return (← exprOver env read value) ++ [Instruction.setVariable slot]
  | .binary left op right =>
    match op.kind with
    | .access .member =>
      match right.name? with
      | none => throw (.notAssignable target.span)
      | some member =>
        let symbol ← liftM (Lower.symbol member)
        if left.isThis then
          let _ ← liftM (env.ownerOf left)
          return (← exprOver env read value) ++ [Instruction.setThisMember symbol]
        else
          let receiver ← exprOver env read left
          return receiver ++ (← exprOver env read value) ++ [Instruction.setMember symbol]
    | .access .dynamicMember =>
      let receiver ← exprOver env read left
      let name ← exprOver env read right
      return receiver ++ name ++ (← exprOver env read value) ++ [Instruction.setDynamicMember]
    | .access .scope =>
      let space ← liftM (namespaceSymbol left)
      let name ← liftM (memberSymbol right)
      return (← exprOver env read value) ++ [Instruction.setGameVariable space name]
    | _ => throw (.notAssignable target.span)
  | .index array at_ _ =>
    let a ← exprOver env read array
    let i ← exprOver env read at_
    return a ++ i ++ (← exprOver env read value) ++ [Instruction.setElement]
  | _ => throw (.notAssignable target.span)

end

structure Keeper (m : Type → Type) where
  /-- Code that reads a name. -/
  read : Token → m Code
  /-- The slot that an assignment to a name sets. -/
  assigned : Token → m Slot
  /-- A new slot for a name. -/
  declare : Token → m UInt16
  /-- A new slot under a name that no source text can spell. -/
  hidden (purpose : String) : m UInt16
  /-- Lets a name stand for the elements of a collection, with a counter. -/
  element (name : Token) (collection : Expr) (index : UInt16) : m Unit
  /-- A computation in a frame of its own. -/
  frame {α : Type} : m α → m α
  /-- How many slots were handed out. -/
  slots : m Nat

section

variable {m : Type → Type} [Monad m] [MonadLiftT Lower m] [MonadExcept CompileError m]

def Stmt.withMark (env : Env) (s : Stmt) (code : Code) : Code := lineMark env s ++ code

mutual

def stmtOver (K : Keeper m) (env : Env) : Stmt → m Code
  | .block ⟨body, _⟩ => K.frame (stmtsOver K env [] body)
  | .expr e => do return (← exprOver env K.read e) ++ [Instruction.pop]
  | .var name init => do
    let value : Code ←
      match init with
      | some e => exprOver env K.read e
      | none => pure [.pushNothing]
    return value ++ [Instruction.setVariable (.ofLocal (← K.declare name))]
  | .assign target value => assignOver env K.read K.assigned target value
  | .return_ none _ => return [.pushNothing, .return_]
  | .return_ (some e) _ => do return (← exprOver env K.read e) ++ [Instruction.return_]
  | .if_ none body _ _ => body.withMark env <$> stmtOver K env body
  | .if_ (some c) body none span => do
    let test ← exprOver env K.read c
    let code ← body.withMark env <$> stmtOver K env body
    let skip ← liftM (Lower.ofExcept (Branch.forward code span))
    return test ++ .branch .ifFalse skip :: code
  | .if_ (some c) body (some arm) span => do
    let test ← exprOver env K.read c
    let code ← body.withMark env <$> stmtOver K env body
    let skip ← liftM (Lower.ofExcept (Branch.forward (code ++ [Instruction.branch .always 0]) span))
    let armCode ← arm.withMark env <$> stmtOver K env arm
    let skipArm ← liftM (Lower.ofExcept (Branch.forward armCode span))
    return test ++ .branch .ifFalse skip :: code ++ .branch .always skipArm :: armCode
  | .while_ c body => do
    let test ← exprOver env K.read c
    let code ← body.withMark env <$> stmtOver K env body
    liftM (Lower.ofExcept (loopCode test code c.span))
  | .doWhile body c => do
    let code ← body.withMark env <$> stmtOver K env body
    let test ← exprOver env K.read c
    let back ← liftM (Lower.ofExcept (Branch.backward (code ++ test) c.span))
    return code ++ test ++ [Instruction.branch .ifTrue back]
  | .foreach element collection body => K.frame do
    let index ← K.hidden "index"
    let last ← K.hidden "max"
    let i := Slot.ofLocal index
    let m := Slot.ofLocal last
    let items ← exprOver env K.read collection
    K.element element collection i.index
    let code ← body.withMark env <$> stmtOver K env body
    let advance : Code := [.getVariable i, .pushInt8 1, .binary .add, .setVariable i]
    let test : Code := [.getVariable m, .getVariable i, .binary .greaterEqual]
    let loop ← liftM (Lower.ofExcept (loopCode test (code ++ advance)
      (element.span + collection.span)))
    let setup : Code :=
      [.pushZero, .setVariable i] ++ items
        ++ [Instruction.property .length, .pushInt8 1, .binary .sub, .setVariable m]
    return setup ++ loop
  | .classDecl _ | .property _ | .subroutine _ | .global _ =>
    throw (.internal "declaration inside a subroutine body")
termination_by structural s => s

/-- Code for statements one after another; `acc` holds that of earlier ones, in reverse. -/
def stmtsOver (K : Keeper m) (env : Env) (acc : Code) : List Stmt → m Code
  | [] => pure acc.reverse
  | s :: ss => do
    let code ← s.withMark env <$> stmtOver K env s
    stmtsOver K env (code.reverse ++ acc) ss
termination_by structural ss => ss

end

def Keeper.declareAll (K : Keeper m) : List Token → m Unit
  | [] => pure ()
  | p :: ps => do
    let _ ← K.declare p
    K.declareAll ps

def Keeper.seed (K : Keeper m) (isMethod : Bool) : m Unit :=
  if isMethod then (fun _ => ()) <$> K.hidden "this" else pure ()

def Keeper.start (K : Keeper m) (parameters : List Token) (isMethod : Bool) : m Unit :=
  match parameters with
  | [] => K.seed isMethod
  | p :: _ =>
    if 255 < parameters.length then throw (.tooManyArguments p.span)
    else do
      K.seed isMethod
      K.declareAll parameters

/-- The whole body of a function or a method, in a frame that is open already. -/
def subroutineOver (K : Keeper m) (env : Env) (s : Subroutine) : m Code := do
  let isMethod := env.owner.isSome
  K.start s.parameters isMethod
  let code ← stmtsOver K env [] s.body.statements
  let draft : Draft :=
    { name := s.name.text, parameterCount := UInt8.ofNat s.parameters.length, isMethod
      scopes := { slotCount := ← K.slots }, code := code.toArray }
  liftM (Lower.ofExcept (draft.finish (s.body.statements.getLast?.any Stmt.isReturn) s.name.span))

end

/-! At the computations of the program itself, it is lowering. -/

section

variable {env : Env} {read : Token → Lower Code}

mutual

theorem exprOver_lower : (e : Expr) → exprOver env read e = lowerExpr env read e
  | .literal t | .variable t | .construct _ none _ => by
    simp only [exprOver, lowerExpr]
    rfl
  | .pending t => by simp only [exprOver, lowerExpr]
  | .grouping e => by
    simp only [exprOver, lowerExpr]
    exact exprOver_lower e
  | .unary op e leads => by
    simp only [exprOver, lowerExpr]
    exact congrArg (· >>= _) (exprOver_lower e)
  | .binary left op right => by
    simp only [exprOver, lowerExpr, exprOver_lower left, exprOver_lower right]
    rfl
  | .index array at_ span => by
    simp only [exprOver, lowerExpr, exprOver_lower array, exprOver_lower at_]
  | .array elements span => by
    simp only [exprOver, lowerExpr, allOver_lower elements]
  | .call target arguments span => by
    simp only [exprOver, lowerExpr, allOver_lower arguments]
    split
    · rfl
    cases target with
    | binary left op right =>
      simp only [exprOver_lower left, exprOver_lower right]
      rfl
    | _ => rfl
  | .construct type (some arguments) span => by
    simp only [exprOver, lowerExpr, allOver_lower arguments]
    rfl
termination_by e => sizeOf e
decreasing_by all_goals (subst_vars; simp +arith)

theorem allOver_lower : (es : List Expr) → (acc : Code) →
    allOver env read acc es = lowerAll env read acc es
  | [], acc => by simp only [allOver, lowerAll]
  | e :: es, acc => by simp only [allOver, lowerAll, exprOver_lower e, allOver_lower es]
termination_by es => sizeOf es
decreasing_by all_goals simp +arith

end

theorem assignOver_lower (scopes : Scopes) (target value : Expr) :
    assignOver env (readName env scopes) (assignedSlot env scopes) target value =
      lowerAssign env scopes target value := by
  simp only [assignOver, lowerAssign, exprOver_lower]
  rfl

end

end Lss
