import Lss.Container.Basic
import Lss.Text.Json

/-!
The container as a JSON document, with every operand by name.
-/
namespace Lss

namespace Instruction

/-- Floats in documents: positional from `0.000001` to below `10 ^ 13`, exponents signed. -/
def documentStyle : Binary32.Style := ⟨.even, fun e => -6 ≤ e && e < 13, true⟩

private def floatDocument (x : Binary32) : Json :=
  if x.isFinite then .number (x.finiteText documentStyle) else .null

private def symbolDocument (s : SymbolId) : Json := .nat s.index.toNat

private def argcMember (argc : UInt8) : String × Json := ("argc", .nat argc.toNat)

/-- The operands: one value, or named members where there are names to tell apart. -/
def operandDocument? : Instruction → Option Json
  | .pushInt8 v => some (.int v.toInt)
  | .pushInt16 v => some (.int v.toInt)
  | .pushInt32 v => some (.int v.toInt)
  | .pushFloat v => some (floatDocument v)
  | .pushString s => some (.nat s.index.toNat)
  | .getVariable s | .setVariable s => some (.nat s.val.toNat)
  | .getMember m | .setMember m | .getThisMember m | .setThisMember m | .createObject m
  | .lookupMethod m => some (symbolDocument m)
  | .getGameVariable s n | .setGameVariable s n =>
    some (.object [("namespace", symbolDocument s), ("name", symbolDocument n)])
  | .getDynamicGameVariable s => some (.object [("namespace", symbolDocument s)])
  | .createArray n => some (.object [("count", .nat n.toNat)])
  | .callFunction target argc =>
    some (.object [("target", .nat target.toNat), argcMember argc])
  | .callGameFunction s n argc =>
    some (.object [("namespace", symbolDocument s), ("name", symbolDocument n), argcMember argc])
  | .callDynamicGameFunction s argc =>
    some (.object [("namespace", symbolDocument s), argcMember argc])
  | .callMethod m argc | .callThisMethod m argc =>
    some (.object [("method", symbolDocument m), argcMember argc])
  | .callDynamicMethod argc | .callIndirect argc => some (.object [argcMember argc])
  | .branch _ d => some (.int d.toInt)
  | .allocateLocals n | .lineNumber n => some (.nat n.toNat)
  | .checkArgumentCount n => some (.nat n.toNat)
  | .unresolvedCall f argc => some (.object [("function", .string f), argcMember argc])
  | _ => none

def documentName : Instruction → String
  | .unresolvedCall _ _ => "UnresolvedCall"
  | i => i.opcode.name

def document (i : Instruction) : Json :=
  match i.operandDocument? with
  | some operands => .object [(i.documentName, operands)]
  | none => .string i.documentName

end Instruction

namespace Container

private def codeDocument (code : Code) : Json := .array (code.map Instruction.document)

private def tableDocument (t : NameTable) : Json := .array (t.toList.map .string)

private def functionDocument (f : FunctionEntry) : Json :=
  .object [("name", .string f.name), ("parameter_count", .nat f.parameterCount.toNat),
    ("instructions", codeDocument f.code)]

private def methodDocument (m : MethodEntry) : Json :=
  .object [("name_symbol", .nat m.symbol.index.toNat), ("instructions", codeDocument m.code)]

private def classDocument (k : ClassEntry) : Json :=
  .object [("name", .string k.name),
    ("property_symbols", .array (k.properties.map fun s => .nat s.index.toNat)),
    ("methods", .array (k.methods.map methodDocument))]

def document (c : Container) : Json :=
  .object [("version_major", .nat c.major.toNat), ("version_minor", .nat c.minor.toNat),
    ("strings", tableDocument c.strings), ("symbols", tableDocument c.symbols),
    ("globals", tableDocument c.globals), ("functions", .array (c.functions.map functionDocument)),
    ("classes", .array (c.classes.map classDocument))]

end Container

end Lss
