import Lss.Container.Basic
import Lss.Text.Hidden
import Lss.Text.Numeral

/-!
The listing of a container: its tables, then every body with the absolute place of each
instruction. Names stand between double quotes, with everything that would not show as itself
escaped.
-/
namespace Lss.Text

def listedChar (c : Char) : String :=
  match c with
  | '\x00' => "\\0"
  | '\t' => "\\t"
  | '\r' => "\\r"
  | '\n' => "\\n"
  | '"' => "\\\""
  | '\\' => "\\\\"
  | c => if isHidden c then "\\u\x7b" ++ hex c.toNat ++ "\x7d" else c.toString

def listed (s : String) : String :=
  s.toList.foldl (fun out c => out ++ listedChar c) "\"" ++ "\""

end Lss.Text

namespace Lss.Container

private def tableText (out : String) (label : String) (t : NameTable) : String :=
  let entry (acc : String × Nat) (name : String) : String × Nat :=
    (acc.1 ++ ";   " ++ Text.padLeft ' ' 4 (toString acc.2) ++ " " ++ Text.listed name ++ "\n",
      acc.2 + 1)
  (t.entries.foldl entry (out ++ "; " ++ label ++ "\n", 0)).1

private def bodyText (out : String) (start : Nat) (code : Code) : String :=
  let line (acc : String × Nat) (i : Instruction) : String × Nat :=
    (acc.1 ++ "    " ++ Text.padLeft '0' 6 (toString acc.2) ++ "  " ++ i.text ++ "\n",
      acc.2 + i.size)
  (code.foldl line (out, start)).1

private def functionText (out : String) (f : FunctionEntry × Nat) : String :=
  bodyText
    (out ++ "\nfunction " ++ f.1.name ++ "/" ++ toString f.1.parameterCount.toNat ++ ":\n")
    f.2 f.1.code

private def classText (symbols : NameTable) (out : String) (k : ClassEntry × List Nat) : String :=
  let nameOf (s : SymbolId) : String := (symbols.get? s.index).getD "?"
  let head := out ++ "\nclass " ++ k.1.name ++ ":\n"
  let properties :=
    k.1.properties.foldl (fun out s => out ++ "  property " ++ nameOf s ++ "\n") head
  (k.1.methods.zip k.2).foldl
    (fun out (m, start) => bodyText (out ++ "  method " ++ nameOf m.symbol ++ ":\n") start m.code)
    properties

/-- Tables first, then functions, then classes. A symbol past the table shows as `?`. -/
def listing (c : Container) : String :=
  let head := "; OSI " ++ toString c.major.toNat ++ "." ++ toString c.minor.toNat ++ "\n"
  let tables := tableText (tableText (tableText head "strings" c.strings) "symbols" c.symbols)
    "globals" c.globals
  let functions := (c.functions.zip c.functionOffsets).foldl functionText tables
  (c.classes.zip c.methodOffsets).foldl (classText c.symbols) functions

end Lss.Container
