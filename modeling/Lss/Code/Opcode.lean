import Lss.Token.Kind

/-!
Operations of the stack machine. Each has one byte and a fixed number of operand bytes; the
operators and properties of the language have an operation each.
-/
namespace Lss

inductive UnaryOp where
  | negate | not | bitNot
deriving DecidableEq, Repr

namespace UnaryOp

def kind : UnaryOp → TokenKind
  | .negate => .binary .sub
  | .not => .bang
  | .bitNot => .tilde

def ofKind? : TokenKind → Option UnaryOp
  | .binary .sub => some .negate
  | .bang => some .not
  | .tilde => some .bitNot
  | _ => none

def all : List UnaryOp := [.negate, .not, .bitNot]

end UnaryOp

inductive ArrayOp where
  | append | removeAt | insertAt
deriving DecidableEq, Repr

namespace ArrayOp

def name : ArrayOp → String
  | .append => "append"
  | .removeAt => "removeat"
  | .insertAt => "insertat"

def arity : ArrayOp → Nat
  | .append => 1
  | .removeAt => 1
  | .insertAt => 2

def all : List ArrayOp := [.append, .removeAt, .insertAt]

def ofName? (name : String) : Option ArrayOp := all.find? (·.name == name)

end ArrayOp

inductive BranchKind where
  | always
  | ifFalse
  | ifTrue
deriving DecidableEq, Repr

inductive Opcode where
  | pushNothing | pushTrue | pushFalse | pushZero
  | pushInt8 | pushInt16 | pushInt32 | pushFloat | pushString
  | getVariable | setVariable
  | getMember | setMember | getThisMember | setThisMember | getDynamicMember | setDynamicMember
  | getGameVariable | setGameVariable | getDynamicGameVariable
  | getElement | setElement | createArray
  | binary (op : BinaryOp)
  | unary (op : UnaryOp)
  | property (p : Property)
  | array (op : ArrayOp)
  | callFunction | callGameFunction | callDynamicGameFunction
  | callMethod | callThisMethod | callDynamicMethod
  | createObject | lookupMethod | callIndirect
  | branch (kind : BranchKind)
  | return_ | pop | dup
  | allocateLocals | checkArgumentCount | lineNumber
deriving DecidableEq, Repr

namespace Opcode

def toByte : Opcode → UInt8
  | .pushNothing => 0x01
  | .pushTrue => 0x02
  | .pushFalse => 0x03
  | .pushZero => 0x04
  | .pushInt8 => 0x05
  | .pushInt16 => 0x06
  | .pushInt32 => 0x07
  | .pushFloat => 0x08
  | .pushString => 0x09
  | .getVariable => 0x10
  | .setVariable => 0x11
  | .getMember => 0x12
  | .setMember => 0x13
  | .getThisMember => 0x14
  | .setThisMember => 0x15
  | .getDynamicMember => 0x16
  | .setDynamicMember => 0x17
  | .getGameVariable => 0x18
  | .setGameVariable => 0x19
  | .getDynamicGameVariable => 0x1A
  | .getElement => 0x1B
  | .setElement => 0x1C
  | .createArray => 0x1D
  | .binary .add => 0x20
  | .binary .sub => 0x21
  | .binary .mul => 0x22
  | .binary .div => 0x23
  | .binary .mod => 0x24
  | .binary .pow => 0x25
  | .binary .bitAnd => 0x26
  | .binary .bitOr => 0x27
  | .binary .bitXor => 0x28
  | .binary .shiftLeft => 0x29
  | .binary .shiftRight => 0x2A
  | .binary .equal => 0x30
  | .binary .notEqual => 0x31
  | .binary .less => 0x32
  | .binary .lessEqual => 0x33
  | .binary .greater => 0x34
  | .binary .greaterEqual => 0x35
  | .binary .and => 0x36
  | .binary .or => 0x37
  | .unary .negate => 0x40
  | .unary .not => 0x41
  | .unary .bitNot => 0x42
  | .property .length => 0x50
  | .property .red => 0x51
  | .property .green => 0x52
  | .property .blue => 0x53
  | .property .alpha => 0x54
  | .property .isInt => 0x55
  | .property .isFloat => 0x56
  | .property .isString => 0x57
  | .property .isObject => 0x58
  | .property .isArray => 0x59
  | .property .classId => 0x5A
  | .array .append => 0x60
  | .array .removeAt => 0x61
  | .array .insertAt => 0x62
  | .callFunction => 0x70
  | .callGameFunction => 0x71
  | .callDynamicGameFunction => 0x72
  | .callMethod => 0x73
  | .callThisMethod => 0x74
  | .callDynamicMethod => 0x75
  | .createObject => 0x76
  | .lookupMethod => 0x77
  | .callIndirect => 0x78
  | .branch .always => 0x80
  | .branch .ifFalse => 0x81
  | .branch .ifTrue => 0x82
  | .return_ => 0x90
  | .pop => 0x91
  | .dup => 0x92
  | .allocateLocals => 0x93
  | .checkArgumentCount => 0x94
  | .lineNumber => 0x95

def all : List Opcode :=
  [.pushNothing, .pushTrue, .pushFalse, .pushZero, .pushInt8, .pushInt16, .pushInt32, .pushFloat,
    .pushString, .getVariable, .setVariable, .getMember, .setMember, .getThisMember,
    .setThisMember, .getDynamicMember, .setDynamicMember, .getGameVariable, .setGameVariable,
    .getDynamicGameVariable, .getElement, .setElement, .createArray,
    .binary .add, .binary .sub, .binary .mul, .binary .div, .binary .mod, .binary .pow,
    .binary .bitAnd, .binary .bitOr, .binary .bitXor, .binary .shiftLeft, .binary .shiftRight,
    .binary .equal, .binary .notEqual, .binary .less, .binary .lessEqual, .binary .greater,
    .binary .greaterEqual, .binary .and, .binary .or,
    .unary .negate, .unary .not, .unary .bitNot,
    .property .length, .property .red, .property .green, .property .blue, .property .alpha,
    .property .isInt, .property .isFloat, .property .isString, .property .isObject,
    .property .isArray, .property .classId,
    .array .append, .array .removeAt, .array .insertAt,
    .callFunction, .callGameFunction, .callDynamicGameFunction, .callMethod, .callThisMethod,
    .callDynamicMethod, .createObject, .lookupMethod, .callIndirect,
    .branch .always, .branch .ifFalse, .branch .ifTrue,
    .return_, .pop, .dup, .allocateLocals, .checkArgumentCount, .lineNumber]

def ofByte? (b : UInt8) : Option Opcode := all.find? (·.toByte == b)

theorem toByte_of_ofByte? {b : UInt8} {op : Opcode} (h : ofByte? b = some op) : op.toByte = b := by
  have := List.find?_some h
  exact eq_of_beq this

theorem ofByte?_toByte (op : Opcode) : ofByte? op.toByte = some op := by
  cases op with
  | binary op => cases op <;> rfl
  | unary op => cases op <;> rfl
  | property p => cases p <;> rfl
  | array op => cases op <;> rfl
  | branch kind => cases kind <;> rfl
  | _ => rfl

def operator? : Opcode → Option BinaryOp
  | .binary op => some op
  | _ => none

def property? : Opcode → Option Property
  | .property p => some p
  | _ => none

/-- Bytes after the operation's own. -/
def operandSize : Opcode → Nat
  | .pushInt8 | .checkArgumentCount | .callIndirect | .callDynamicMethod => 1
  | .pushInt16 | .pushString | .getVariable | .setVariable | .getMember | .setMember
  | .getThisMember | .setThisMember | .getDynamicGameVariable | .createArray | .createObject
  | .lookupMethod | .branch _ | .allocateLocals | .lineNumber => 2
  | .callMethod | .callThisMethod | .callDynamicGameFunction => 3
  | .pushInt32 | .pushFloat | .getGameVariable | .setGameVariable => 4
  | .callFunction | .callGameFunction => 5
  | _ => 0

def name : Opcode → String
  | .pushNothing => "PushNothing"
  | .pushTrue => "PushTrue"
  | .pushFalse => "PushFalse"
  | .pushZero => "PushZero"
  | .pushInt8 => "PushInt8"
  | .pushInt16 => "PushInt16"
  | .pushInt32 => "PushInt32"
  | .pushFloat => "PushFloat"
  | .pushString => "PushString"
  | .getVariable => "GetVariable"
  | .setVariable => "SetVariable"
  | .getMember => "GetMember"
  | .setMember => "SetMember"
  | .getThisMember => "GetThisMember"
  | .setThisMember => "SetThisMember"
  | .getDynamicMember => "GetDynamicMember"
  | .setDynamicMember => "SetDynamicMember"
  | .getGameVariable => "GetGameVariable"
  | .setGameVariable => "SetGameVariable"
  | .getDynamicGameVariable => "GetDynamicGameVariable"
  | .getElement => "GetElement"
  | .setElement => "SetElement"
  | .createArray => "CreateArray"
  | .binary .add => "Add"
  | .binary .sub => "Sub"
  | .binary .mul => "Mul"
  | .binary .div => "Div"
  | .binary .mod => "Mod"
  | .binary .pow => "Pow"
  | .binary .bitAnd => "BitAnd"
  | .binary .bitOr => "BitOr"
  | .binary .bitXor => "BitXor"
  | .binary .shiftLeft => "ShiftLeft"
  | .binary .shiftRight => "ShiftRight"
  | .binary .equal => "Equal"
  | .binary .notEqual => "NotEqual"
  | .binary .less => "Less"
  | .binary .lessEqual => "LessEqual"
  | .binary .greater => "Greater"
  | .binary .greaterEqual => "GreaterEqual"
  | .binary .and => "LogicalAnd"
  | .binary .or => "LogicalOr"
  | .unary .negate => "Negate"
  | .unary .not => "Not"
  | .unary .bitNot => "BitNot"
  | .property .length => "Length"
  | .property .red => "Red"
  | .property .green => "Green"
  | .property .blue => "Blue"
  | .property .alpha => "Alpha"
  | .property .isInt => "IsInt"
  | .property .isFloat => "IsFloat"
  | .property .isString => "IsString"
  | .property .isObject => "IsObject"
  | .property .isArray => "IsArray"
  | .property .classId => "ClassId"
  | .array .append => "ArrayAppend"
  | .array .removeAt => "ArrayRemoveAt"
  | .array .insertAt => "ArrayInsertAt"
  | .callFunction => "CallFunction"
  | .callGameFunction => "CallGameFunction"
  | .callDynamicGameFunction => "CallDynamicGameFunction"
  | .callMethod => "CallMethod"
  | .callThisMethod => "CallThisMethod"
  | .callDynamicMethod => "CallDynamicMethod"
  | .createObject => "CreateObject"
  | .lookupMethod => "LookupMethod"
  | .callIndirect => "CallIndirect"
  | .branch .always => "Branch"
  | .branch .ifFalse => "BranchIfFalse"
  | .branch .ifTrue => "BranchIfTrue"
  | .return_ => "Return"
  | .pop => "Pop"
  | .dup => "Dup"
  | .allocateLocals => "AllocateLocals"
  | .checkArgumentCount => "CheckArgumentCount"
  | .lineNumber => "LineNumber"

end Opcode

end Lss
