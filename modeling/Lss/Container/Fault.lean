import Lss.Files.Store
import Lss.Text.Numeral

/-!
What can go wrong when a container is built, written or read.
-/
namespace Lss

inductive TableId where
  | strings | symbols | globals
deriving DecidableEq, Repr

def TableId.text : TableId → String
  | .strings => "string"
  | .symbols => "symbol"
  | .globals => "global"

inductive Section where
  | table (id : TableId)
  | functions | classes | properties | methods | name | code
deriving DecidableEq, Repr

def Section.text : Section → String
  | .table id => id.text ++ " table"
  | .functions => "function table"
  | .classes => "class table"
  | .properties => "property list"
  | .methods => "method list"
  | .name => "name"
  | .code => "code"

inductive FormatError where
  | invalidMagic
  | invalidOpcode (byte : UInt8) (offset : Nat)
  | unexpectedEnd (offset : Nat)
  | tableFull
  | indexOutOfRange (table : TableId) (index : UInt16)
  | unresolvedCall (function : String)
  | invalidUtf8 (offset : Nat)
  | tooLarge (part : Section)
  | file (fault : FileFault)
deriving DecidableEq, Repr

def FormatError.name : FormatError → String
  | .invalidMagic => "InvalidMagic"
  | .invalidOpcode _ _ => "InvalidOpcode"
  | .unexpectedEnd _ => "UnexpectedEnd"
  | .tableFull => "TableFull"
  | .indexOutOfRange _ _ => "IndexOutOfRange"
  | .unresolvedCall _ => "UnresolvedCall"
  | .invalidUtf8 _ => "InvalidUtf8"
  | .tooLarge _ => "TooLarge"
  | .file _ => "Io"

def FormatError.message : FormatError → String
  | .invalidMagic => "Invalid magic bytes"
  | .invalidOpcode byte offset =>
    "Invalid opcode 0x" ++ Text.hexByte byte ++ " at offset " ++ toString offset
  | .unexpectedEnd offset => "Unexpected end of bytecode at offset " ++ toString offset
  | .tableFull => "Name table is full (max 65535 entries)"
  | .indexOutOfRange table index =>
    "Index " ++ toString index.toNat ++ " is out of range for the " ++ table.text ++ " table"
  | .unresolvedCall function => "Unresolved call to '" ++ function ++ "' cannot be encoded"
  | .invalidUtf8 offset => "Invalid UTF-8 in name at offset " ++ toString offset
  | .tooLarge part => "Too many entries in " ++ part.text
  | .file fault => "IO error: " ++ fault.message

end Lss
