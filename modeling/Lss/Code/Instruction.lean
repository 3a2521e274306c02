import Lss.Binary32.Decimal
import Lss.Code.Opcode
import Lss.Code.Operand
import Lss.Text.Numeral

/-!
Instructions: operations with their operands. A call whose target is not laid out yet is kept by
name and takes the same room as the call it becomes.
-/
namespace Lss

inductive Instruction where
  | pushNothing
  | pushTrue
  | pushFalse
  | pushZero
  | pushInt8 (value : Int8)
  | pushInt16 (value : Int16)
  | pushInt32 (value : Int32)
  | pushFloat (value : Binary32)
  | pushString (string : StringId)
  | getVariable (slot : Slot)
  | setVariable (slot : Slot)
  | getMember (member : SymbolId)
  | setMember (member : SymbolId)
  | getThisMember (member : SymbolId)
  | setThisMember (member : SymbolId)
  | getDynamicMember
  | setDynamicMember
  | getGameVariable (space name : SymbolId)
  | setGameVariable (space name : SymbolId)
  | getDynamicGameVariable (space : SymbolId)
  | getElement
  | setElement
  | createArray (count : UInt16)
  | binary (op : BinaryOp)
  | unary (op : UnaryOp)
  | property (p : Property)
  | array (op : ArrayOp)
  | callFunction (target : UInt32) (argc : UInt8)
  | callGameFunction (space name : SymbolId) (argc : UInt8)
  | callDynamicGameFunction (space : SymbolId) (argc : UInt8)
  /-- Takes two copies of the receiver below the arguments and leaves one result. -/
  | callMethod (method : SymbolId) (argc : UInt8)
  | callThisMethod (method : SymbolId) (argc : UInt8)
  /-- Takes two copies of the receiver and a name below the arguments. -/
  | callDynamicMethod (argc : UInt8)
  | createObject (type : SymbolId)
  | lookupMethod (method : SymbolId)
  /-- Takes a receiver, the arguments and a method on top of them. -/
  | callIndirect (argc : UInt8)
  /-- The distance counts bytes from the end of the branch. -/
  | branch (kind : BranchKind) (distance : Int16)
  | return_
  | pop
  | dup
  | allocateLocals (count : UInt16)
  | checkArgumentCount (count : UInt8)
  | lineNumber (line : UInt16)
  | unresolvedCall (function : String) (argc : UInt8)
deriving DecidableEq, Repr

namespace Instruction

def opcode : Instruction → Opcode
  | .pushNothing => .pushNothing
  | .pushTrue => .pushTrue
  | .pushFalse => .pushFalse
  | .pushZero => .pushZero
  | .pushInt8 _ => .pushInt8
  | .pushInt16 _ => .pushInt16
  | .pushInt32 _ => .pushInt32
  | .pushFloat _ => .pushFloat
  | .pushString _ => .pushString
  | .getVariable _ => .getVariable
  | .setVariable _ => .setVariable
  | .getMember _ => .getMember
  | .setMember _ => .setMember
  | .getThisMember _ => .getThisMember
  | .setThisMember _ => .setThisMember
  | .getDynamicMember => .getDynamicMember
  | .setDynamicMember => .setDynamicMember
  | .getGameVariable _ _ => .getGameVariable
  | .setGameVariable _ _ => .setGameVariable
  | .getDynamicGameVariable _ => .getDynamicGameVariable
  | .getElement => .getElement
  | .setElement => .setElement
  | .createArray _ => .createArray
  | .binary op => .binary op
  | .unary op => .unary op
  | .property p => .property p
  | .array op => .array op
  | .callFunction _ _ => .callFunction
  | .callGameFunction _ _ _ => .callGameFunction
  | .callDynamicGameFunction _ _ => .callDynamicGameFunction
  | .callMethod _ _ => .callMethod
  | .callThisMethod _ _ => .callThisMethod
  | .callDynamicMethod _ => .callDynamicMethod
  | .createObject _ => .createObject
  | .lookupMethod _ => .lookupMethod
  | .callIndirect _ => .callIndirect
  | .branch kind _ => .branch kind
  | .return_ => .return_
  | .pop => .pop
  | .dup => .dup
  | .allocateLocals _ => .allocateLocals
  | .checkArgumentCount _ => .checkArgumentCount
  | .lineNumber _ => .lineNumber
  | .unresolvedCall _ _ => .callFunction

def size (i : Instruction) : Nat := 1 + i.opcode.operandSize

def distance? : Instruction → Option Int16
  | .branch _ d => some d
  | _ => none

def endsFlow : Instruction → Bool
  | .branch .always _ | .return_ => true
  | _ => false

/-- The same instruction, where floats count as numbers and not as bit patterns. -/
def agrees : Instruction → Instruction → Bool
  | .pushFloat x, .pushFloat y => x.agrees y
  | i, j => i == j

/-- The form of floats in listings: positional from `0.0001` to below `10 ^ 16`. -/
def floatStyle : Binary32.Style := ⟨.up, fun e => -4 ≤ e && e < 16, false⟩

private def argcText (argc : UInt8) : String := "argc=" ++ toString argc.toNat

def operandText? : Instruction → Option String
  | .pushInt8 v => toString v.toInt
  | .pushInt16 v => toString v.toInt
  | .pushInt32 v => toString v.toInt
  | .pushFloat v => v.text floatStyle
  | .pushString s => s.text
  | .getVariable s | .setVariable s => s.text
  | .getMember m | .setMember m | .getThisMember m | .setThisMember m | .createObject m
  | .lookupMethod m | .getDynamicGameVariable m => m.text
  | .getGameVariable s n | .setGameVariable s n => s.text ++ "::" ++ n.text
  | .createArray n | .allocateLocals n | .lineNumber n => toString n.toNat
  | .callFunction target argc => "@" ++ toString target.toNat ++ " " ++ argcText argc
  | .callGameFunction s n argc => s.text ++ "::" ++ n.text ++ " " ++ argcText argc
  | .callDynamicGameFunction m argc | .callMethod m argc | .callThisMethod m argc =>
    m.text ++ " " ++ argcText argc
  | .callDynamicMethod argc | .callIndirect argc => argcText argc
  | .branch _ d => Text.signed d.toInt
  | .checkArgumentCount n => toString n.toNat
  | .unresolvedCall f argc => "<" ++ f ++ "> " ++ argcText argc
  | _ => none

def text (i : Instruction) : String :=
  match i.operandText? with
  | some operands => i.opcode.name ++ " " ++ operands
  | none => i.opcode.name

def simple? : Opcode → Option Instruction
  | .pushNothing => some .pushNothing
  | .pushTrue => some .pushTrue
  | .pushFalse => some .pushFalse
  | .pushZero => some .pushZero
  | .getDynamicMember => some .getDynamicMember
  | .setDynamicMember => some .setDynamicMember
  | .getElement => some .getElement
  | .setElement => some .setElement
  | .binary op => some (.binary op)
  | .unary op => some (.unary op)
  | .property p => some (.property p)
  | .array op => some (.array op)
  | .return_ => some .return_
  | .pop => some .pop
  | .dup => some .dup
  | _ => none

def pushInteger? (n : Int) : Option Instruction :=
  if n = 0 then some .pushZero
  else if -0x80 ≤ n ∧ n < 0x80 then some (.pushInt8 (.ofInt n))
  else if -0x8000 ≤ n ∧ n < 0x8000 then some (.pushInt16 (.ofInt n))
  else if -0x80000000 ≤ n ∧ n < 0x80000000 then some (.pushInt32 (.ofInt n))
  else none

def ofIntegerText? (text : String) : Option Instruction :=
  (Text.integer? text.toList).bind pushInteger?

end Instruction

abbrev Code := List Instruction

def Code.size (code : Code) : Nat := code.foldl (fun n i => n + i.size) 0

namespace Code

theorem foldl_size (code : Code) (n : Nat) :
    code.foldl (fun n i => n + i.size) n = n + Code.size code := by
  unfold Code.size
  induction code generalizing n with
  | nil => simp
  | cons i code ih =>
    simp only [List.foldl_cons, Nat.zero_add]
    rw [ih, ih i.size, Nat.add_assoc]

@[simp] theorem size_nil : Code.size [] = 0 := rfl

@[simp] theorem size_cons (i : Instruction) (code : Code) :
    Code.size (i :: code) = i.size + Code.size code := by
  show (i :: code).foldl (fun n i => n + i.size) 0 = _
  rw [List.foldl_cons, foldl_size, Nat.zero_add]

@[simp] theorem size_append (a b : Code) : Code.size (a ++ b) = Code.size a + Code.size b := by
  induction a with
  | nil => simp
  | cons i a ih => simp [ih, Nat.add_assoc]

/-- Equal instruction by instruction, floats as numbers. -/
def agrees (a b : Code) : Bool :=
  a.length == b.length && (a.zip b).all fun (i, j) => i.agrees j

end Code

end Lss
