import Lss.Code.Instruction
import Lss.Code.Word
import Lss.Container.Fault

/-!
Instructions as bytes: the operation's byte, then its operands, little-endian.
-/
namespace Lss

namespace Instruction

def byte (x : UInt8) : List UInt8 := [x]

def word (x : UInt16) : List UInt8 := Word.bytes 2 x.toNat

def long (x : UInt32) : List UInt8 := Word.bytes 4 x.toNat

def operands : Instruction → List UInt8
  | .pushInt8 v => byte v.toUInt8
  | .pushInt16 v => word v.toUInt16
  | .pushInt32 v => long v.toUInt32
  | .pushFloat v => long v.bits
  | .pushString s => word s.index
  | .getVariable s | .setVariable s => word s.val
  | .getMember m | .setMember m | .getThisMember m | .setThisMember m | .createObject m
  | .lookupMethod m | .getDynamicGameVariable m => word m.index
  | .getGameVariable s n | .setGameVariable s n => word s.index ++ word n.index
  | .createArray n | .allocateLocals n | .lineNumber n => word n
  | .callFunction target argc => long target ++ byte argc
  | .callGameFunction s n argc => word s.index ++ word n.index ++ byte argc
  | .callDynamicGameFunction m argc | .callMethod m argc | .callThisMethod m argc =>
    word m.index ++ byte argc
  | .callDynamicMethod argc | .callIndirect argc => byte argc
  | .branch _ d => word d.toUInt16
  | .checkArgumentCount n => byte n
  | _ => []

def encode : Instruction → Except FormatError (List UInt8)
  | .unresolvedCall function _ => .error (.unresolvedCall function)
  | i => .ok (i.opcode.toByte :: i.operands)

def word? (a b : UInt8) : UInt16 := UInt16.ofNat (Word.value [a, b])

def long? (a b c d : UInt8) : UInt32 := UInt32.ofNat (Word.value [a, b, c, d])

/-- The instruction of an operation with these operand bytes, if there are just enough of them. -/
def ofOperands? : Opcode → List UInt8 → Option Instruction
  | .pushInt8, [a] => some (.pushInt8 a.toInt8)
  | .pushInt16, [a, b] => some (.pushInt16 (word? a b).toInt16)
  | .pushInt32, [a, b, c, d] => some (.pushInt32 (long? a b c d).toInt32)
  | .pushFloat, [a, b, c, d] => some (.pushFloat ⟨long? a b c d⟩)
  | .pushString, [a, b] => some (.pushString ⟨word? a b⟩)
  | .getVariable, [a, b] => some (.getVariable ⟨word? a b⟩)
  | .setVariable, [a, b] => some (.setVariable ⟨word? a b⟩)
  | .getMember, [a, b] => some (.getMember ⟨word? a b⟩)
  | .setMember, [a, b] => some (.setMember ⟨word? a b⟩)
  | .getThisMember, [a, b] => some (.getThisMember ⟨word? a b⟩)
  | .setThisMember, [a, b] => some (.setThisMember ⟨word? a b⟩)
  | .getGameVariable, [a, b, c, d] => some (.getGameVariable ⟨word? a b⟩ ⟨word? c d⟩)
  | .setGameVariable, [a, b, c, d] => some (.setGameVariable ⟨word? a b⟩ ⟨word? c d⟩)
  | .getDynamicGameVariable, [a, b] => some (.getDynamicGameVariable ⟨word? a b⟩)
  | .createArray, [a, b] => some (.createArray (word? a b))
  | .callFunction, [a, b, c, d, e] => some (.callFunction (long? a b c d) e)
  | .callGameFunction, [a, b, c, d, e] => some (.callGameFunction ⟨word? a b⟩ ⟨word? c d⟩ e)
  | .callDynamicGameFunction, [a, b, c] => some (.callDynamicGameFunction ⟨word? a b⟩ c)
  | .callMethod, [a, b, c] => some (.callMethod ⟨word? a b⟩ c)
  | .callThisMethod, [a, b, c] => some (.callThisMethod ⟨word? a b⟩ c)
  | .callDynamicMethod, [a] => some (.callDynamicMethod a)
  | .createObject, [a, b] => some (.createObject ⟨word? a b⟩)
  | .lookupMethod, [a, b] => some (.lookupMethod ⟨word? a b⟩)
  | .callIndirect, [a] => some (.callIndirect a)
  | .branch kind, [a, b] => some (.branch kind (word? a b).toInt16)
  | .allocateLocals, [a, b] => some (.allocateLocals (word? a b))
  | .checkArgumentCount, [a] => some (.checkArgumentCount a)
  | .lineNumber, [a, b] => some (.lineNumber (word? a b))
  | op, [] => simple? op
  | _, _ => none

/-- The instruction that starts with `b` and goes on in `bs`; `offset` is its place, for errors. -/
def decode (offset : Nat) (b : UInt8) (bs : List UInt8) : Except FormatError Instruction :=
  match Opcode.ofByte? b with
  | none => .error (.invalidOpcode b offset)
  | some op =>
    match ofOperands? op (bs.take op.operandSize) with
    | some i => .ok i
    | none => .error (.unexpectedEnd offset)

def decodeAt (bytes : List UInt8) (offset : Nat) : Except FormatError Instruction :=
  match bytes.drop offset with
  | [] => .error (.unexpectedEnd offset)
  | b :: bs => decode offset b bs

end Instruction

namespace Code

def encode (code : Code) : Except FormatError (List UInt8) := do
  return (← code.mapM Instruction.encode).flatten

/-- Instructions up to the end of the bytes; `acc` holds those before `offset`, in reverse. -/
def decodeOnto (acc : Code) (offset : Nat) (bytes : List UInt8) : Except FormatError Code :=
  match bytes with
  | [] => .ok acc.reverse
  | b :: bs =>
    match Instruction.decode offset b bs with
    | .ok i => decodeOnto (i :: acc) (offset + i.size) (bs.drop i.opcode.operandSize)
    | .error e => .error e
termination_by bytes.length
decreasing_by simp only [List.length_drop, List.length_cons]; omega

/-- The instructions that fill a row of bytes, the first of which has place `offset`. -/
def decode (offset : Nat) (bytes : List UInt8) : Except FormatError Code :=
  decodeOnto [] offset bytes

end Code

end Lss
