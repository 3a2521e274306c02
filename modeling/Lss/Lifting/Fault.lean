import Lss.Code.Instruction
import Lss.Container.Fault

/-!
Why a body cannot be read back. Places count instructions of the body behind its prologue.
-/
namespace Lss

inductive EntryKind where
  | function | class_ | method
deriving DecidableEq, Repr

def EntryKind.text : EntryKind → String
  | .function => "function"
  | .class_ => "class"
  | .method => "method"

inductive DecompileError where
  | stackUnderflow (place : Nat)
  /-- An instruction that no compiled body has there. -/
  | unexpected (instruction : Instruction) (place : Nat)
  /-- Branches that form no `if` and no loop. -/
  | unstructured (place : Nat)
  /-- A branch into an instruction or out of the body. -/
  | invalidTarget (place : Nat)
  | unknownCallTarget (offset : UInt32)
  /-- A value left where a statement must end. -/
  | danglingValue (place : Nat)
  | missingEntry (kind : EntryKind) (index : Nat)
  | format (error : FormatError)
  | file (fault : FileFault)
deriving DecidableEq, Repr

def DecompileError.name : DecompileError → String
  | .stackUnderflow _ => "StackUnderflow"
  | .unexpected _ _ => "UnexpectedInstruction"
  | .unstructured _ => "UnstructuredControlFlow"
  | .invalidTarget _ => "InvalidBranchTarget"
  | .unknownCallTarget _ => "UnknownCallTarget"
  | .danglingValue _ => "DanglingValue"
  | .missingEntry _ _ => "MissingEntry"
  | .format _ => "Bytecode"
  | .file _ => "Io"

def DecompileError.message : DecompileError → String
  | .stackUnderflow place => "Stack underflow at instruction " ++ toString place
  | .unexpected i place => "Unexpected " ++ i.text ++ " at instruction " ++ toString place
  | .unstructured place => "Unstructured control flow at instruction " ++ toString place
  | .invalidTarget place => "Branch at instruction " ++ toString place ++ " has no valid target"
  | .unknownCallTarget offset =>
    "No function starts at code offset " ++ toString offset.toNat
  | .danglingValue place => "Dangling value at instruction " ++ toString place
  | .missingEntry kind index => "No " ++ kind.text ++ " entry at index " ++ toString index
  | .format error => error.message
  | .file fault => "I/O error: " ++ fault.message

end Lss
