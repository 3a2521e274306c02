import Lss.Container.View

/-!
Containers from JSON documents: what the view writes can be read again.
-/
namespace Lss

namespace Instruction

private def symbol? (j : Json) : Option SymbolId := j.word?.map SymbolId.mk

def ofOperandDocument? (name : String) (v : Json) : Option Instruction := do
  let symbol (key : String) : Option SymbolId := (v.member? key).bind symbol?
  let argc : Option UInt8 := (v.member? "argc").bind Json.byte?
  let distance : Option Int16 := (v.signed? 16).map Int16.ofInt
  match name with
  | "PushInt8" => return .pushInt8 (.ofInt (← v.signed? 8))
  | "PushInt16" => return .pushInt16 (.ofInt (← v.signed? 16))
  | "PushInt32" => return .pushInt32 (.ofInt (← v.signed? 32))
  | "PushFloat" =>
    match v with
    | .number text => return .pushFloat (← Binary32.read? text.toList)
    | _ => none
  | "PushString" => return .pushString ⟨← v.word?⟩
  | "GetVariable" => return .getVariable ⟨← v.word?⟩
  | "SetVariable" => return .setVariable ⟨← v.word?⟩
  | "GetMember" => return .getMember (← symbol? v)
  | "SetMember" => return .setMember (← symbol? v)
  | "GetThisMember" => return .getThisMember (← symbol? v)
  | "SetThisMember" => return .setThisMember (← symbol? v)
  | "GetGameVariable" => return .getGameVariable (← symbol "namespace") (← symbol "name")
  | "SetGameVariable" => return .setGameVariable (← symbol "namespace") (← symbol "name")
  | "GetDynamicGameVariable" => return .getDynamicGameVariable (← symbol "namespace")
  | "CreateArray" => return .createArray (← (← v.member? "count").word?)
  | "CallFunction" =>
    return .callFunction (UInt32.ofNat (← (← v.member? "target").natBelow? 0x100000000)) (← argc)
  | "CallGameFunction" =>
    return .callGameFunction (← symbol "namespace") (← symbol "name") (← argc)
  | "CallDynamicGameFunction" => return .callDynamicGameFunction (← symbol "namespace") (← argc)
  | "CallMethod" => return .callMethod (← symbol "method") (← argc)
  | "CallThisMethod" => return .callThisMethod (← symbol "method") (← argc)
  | "CallDynamicMethod" => return .callDynamicMethod (← argc)
  | "CallIndirect" => return .callIndirect (← argc)
  | "CreateObject" => return .createObject (← symbol? v)
  | "LookupMethod" => return .lookupMethod (← symbol? v)
  | "Branch" => return .branch .always (← distance)
  | "BranchIfFalse" => return .branch .ifFalse (← distance)
  | "BranchIfTrue" => return .branch .ifTrue (← distance)
  | "AllocateLocals" => return .allocateLocals (← v.word?)
  | "CheckArgumentCount" => return .checkArgumentCount (← v.byte?)
  | "LineNumber" => return .lineNumber (← v.word?)
  | "UnresolvedCall" => return .unresolvedCall (← (← v.member? "function").string?) (← argc)
  | _ => none

def ofDocument? : Json → Option Instruction
  | .string name => (Opcode.all.find? (·.name == name)).bind simple?
  | .object [(name, operands)] => ofOperandDocument? name operands
  | _ => none

end Instruction

namespace Container

def codeOfDocument? (j : Json) : Option Code := j.itemsOf? Instruction.ofDocument?

private def names? (j : Json) (key : String) : Option NameTable := do
  return .ofList (← (← j.member? key).itemsOf? Json.string?)

private def function? (j : Json) : Option FunctionEntry := do
  let name ← (← j.member? "name").string?
  let count ← (← j.member? "parameter_count").byte?
  return ⟨name, count, ← codeOfDocument? (← j.member? "instructions")⟩

private def method? (j : Json) : Option MethodEntry := do
  let symbol ← (← j.member? "name_symbol").word?
  return ⟨⟨symbol⟩, ← codeOfDocument? (← j.member? "instructions")⟩

private def class? (j : Json) : Option ClassEntry := do
  let name ← (← j.member? "name").string?
  let properties ← (← j.member? "property_symbols").itemsOf? Json.word?
  return ⟨name, properties.map SymbolId.mk, ← (← j.member? "methods").itemsOf? method?⟩

def ofDocument? (j : Json) : Option Container := do
  let major ← (← j.member? "version_major").word?
  let minor ← (← j.member? "version_minor").word?
  let strings ← names? j "strings"
  let symbols ← names? j "symbols"
  let globals ← names? j "globals"
  let functions ← (← j.member? "functions").itemsOf? function?
  let classes ← (← j.member? "classes").itemsOf? class?
  return ⟨major, minor, strings, symbols, globals, functions, classes⟩

end Container

end Lss
