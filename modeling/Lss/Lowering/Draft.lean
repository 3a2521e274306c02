import Lss.Code.Instruction
import Lss.Lowering.Fault
import Lss.Lowering.Scopes

/-!
Bodies in the making. Branches count bytes from their own end: forward ones over the code that
follows them, backward ones over the code before them and themselves. The prologue is added last,
when the number of locals is known, and moves no distance.
-/
namespace Lss

namespace Branch

def size : Nat := 3

def distance? (n : Nat) : Option Int16 := if n < 0x8000 then some (Int16.ofInt n) else none

def forward (code : Code) (span : Span) : Except CompileError Int16 :=
  match distance? code.size with
  | some d => .ok d
  | none => .error (.branchTooFar span)

def backward (code : Code) (span : Span) : Except CompileError Int16 :=
  match distance? (code.size + size) with
  | some d => .ok (-d)
  | none => .error (.branchTooFar span)

end Branch

structure Draft where
  name : String
  parameterCount : UInt8
  isMethod : Bool
  scopes : Scopes
  code : Array Instruction := #[]

namespace Draft

/-- No operand addresses more slots than this. -/
def maxLocals : Nat := 0x7FFF

def declareAll (scopes : Scopes) : List Token → Except CompileError Scopes
  | [] => .ok scopes
  | p :: ps =>
    match scopes.declare p.text with
    | some (_, scopes) => declareAll scopes ps
    | none => .error (.duplicateVariable p.text p.span)

/-- An empty body. Slot 0 of a method is the object itself; the parameters come next. -/
def start (name : String) (parameters : List Token) (isMethod : Bool) :
    Except CompileError Draft :=
  match parameters with
  | [] => .ok { name, parameterCount := 0, isMethod, scopes := seed isMethod }
  | p :: _ =>
    if 255 < parameters.length then .error (.tooManyArguments p.span)
    else
      match declareAll (seed isMethod) parameters with
      | .ok scopes =>
        .ok { name, parameterCount := UInt8.ofNat parameters.length, isMethod, scopes }
      | .error e => .error e
where
  /-- A method has a slot for the object itself, without a name. -/
  seed (isMethod : Bool) : Scopes := (Scopes.start.declareHiddenMany "this" isMethod.toNat).2

def emit (d : Draft) (i : Instruction) : Draft := { d with code := d.code.push i }

/-- A branch whose distance is set later, and its place. -/
def emitBranch (d : Draft) (kind : BranchKind) : Nat × Draft :=
  (d.code.size, d.emit (.branch kind 0))

/-- Lets the branch at a place lead to the end of the code so far. -/
def patch (d : Draft) (place : Nat) (span : Span) : Except CompileError Draft := do
  let distance ← Branch.forward (d.code.toList.drop (place + 1)) span
  match d.code[place]? with
  | some (.branch kind _) =>
    return { d with code := d.code.modify place fun _ => .branch kind distance }
  | some other => throw (.internal ("cannot patch non-branch " ++ other.text))
  | none => throw (.internal "cannot patch past the end")

def emitBack (d : Draft) (kind : BranchKind) (place : Nat) (span : Span) :
    Except CompileError Draft := do
  return d.emit (.branch kind (← Branch.backward (d.code.toList.drop place) span))

def extraLocals (d : Draft) : Nat :=
  d.scopes.slotCount - (d.parameterCount.toNat + d.isMethod.toNat)

def prologue (d : Draft) : Code :=
  (if d.isMethod && d.parameterCount > 0 then [.checkArgumentCount d.parameterCount] else []) ++
    (if d.extraLocals > 0 then [.allocateLocals (UInt16.ofNat d.extraLocals)] else [])

def implicitReturn : Code := [.pushNothing, .return_]

def finish (d : Draft) (endsInReturn : Bool) (span : Span) : Except CompileError Code :=
  if maxLocals < d.scopes.slotCount then .error (.tooManyLocals d.name span)
  else
    .ok (d.prologue ++ d.code.toList ++ (if endsInReturn then [] else implicitReturn))

end Draft

end Lss
