import Lss.Container.Fault
import Lss.Source.Diagnostic

/-!
Semantic errors. Each one fails the subroutine in which it is found, and the others are still
looked at.
-/
namespace Lss

inductive CompileError where
  | undefinedVariable (name : String) (span : Span)
  | undefinedFunction (name : String) (span : Span)
  | undefinedClass (name : String) (span : Span)
  | duplicateVariable (name : String) (span : Span)
  | duplicateFunction (name : String) (span : Span)
  | duplicateClass (name : String) (span : Span)
  | wrongArgumentCount (name : String) (expected found : Nat) (span : Span)
  | literalOutOfRange (text : String) (span : Span)
  | notAssignable (span : Span)
  | invalidThis (span : Span)
  | invalidCallTarget (span : Span)
  | invalidNamespace (span : Span)
  | inheritanceCycle (name : String) (span : Span)
  | tooManyLocals (name : String) (span : Span)
  | tooManyArguments (span : Span)
  | branchTooFar (span : Span)
  | unreadable (path : String) (fault : FileFault)
  | format (error : FormatError)
  /-- A tree or a container that no source text leads to. -/
  | internal (what : String)
deriving DecidableEq, Repr

namespace CompileError

def name : CompileError → String
  | .undefinedVariable _ _ => "UndefinedVariable"
  | .undefinedFunction _ _ => "UndefinedFunction"
  | .undefinedClass _ _ => "UndefinedClass"
  | .duplicateVariable _ _ => "DuplicateVariable"
  | .duplicateFunction _ _ => "DuplicateFunction"
  | .duplicateClass _ _ => "DuplicateClass"
  | .wrongArgumentCount _ _ _ _ => "WrongArgumentCount"
  | .literalOutOfRange _ _ => "LiteralOutOfRange"
  | .notAssignable _ => "NotAssignable"
  | .invalidThis _ => "InvalidThis"
  | .invalidCallTarget _ => "InvalidCallTarget"
  | .invalidNamespace _ => "InvalidNamespace"
  | .inheritanceCycle _ _ => "InheritanceCycle"
  | .tooManyLocals _ _ => "TooManyLocals"
  | .tooManyArguments _ => "TooManyArguments"
  | .branchTooFar _ => "BranchTooFar"
  | .unreadable _ _ => "Io"
  | .format _ => "Bytecode"
  | .internal _ => "Internal"

def message : CompileError → String
  | .undefinedVariable name _ => "Undefined variable '" ++ name ++ "'"
  | .undefinedFunction name _ => "Undefined function '" ++ name ++ "'"
  | .undefinedClass name _ => "Undefined class '" ++ name ++ "'"
  | .duplicateVariable name _ => "Variable '" ++ name ++ "' is already declared in this scope"
  | .duplicateFunction name _ => "Function '" ++ name ++ "' is already declared"
  | .duplicateClass name _ => "Class '" ++ name ++ "' is already declared"
  | .wrongArgumentCount name expected found _ =>
    "'" ++ name ++ "' expects " ++ toString expected ++ " argument(s), got " ++ toString found
  | .literalOutOfRange text _ => "Literal '" ++ text ++ "' is out of range"
  | .notAssignable _ => "Expression cannot be assigned to"
  | .invalidThis _ => "'this' is only available inside class methods"
  | .invalidCallTarget _ => "Expression cannot be called"
  | .invalidNamespace _ => "Expected a namespace name before '::'"
  | .inheritanceCycle name _ => "Class '" ++ name ++ "' inherits from itself"
  | .tooManyLocals name _ => "Too many local variables in '" ++ name ++ "'"
  | .tooManyArguments _ => "Too many arguments or elements"
  | .branchTooFar _ => "Control structure is too large to branch over"
  | .unreadable path fault => "Cannot read '" ++ path ++ "': " ++ fault.message
  | .format error => error.message
  | .internal what => "Internal error: " ++ what

def code : CompileError → String
  | .undefinedVariable _ _ => "C001"
  | .undefinedFunction _ _ => "C002"
  | .undefinedClass _ _ => "C003"
  | .duplicateVariable _ _ => "C004"
  | .duplicateFunction _ _ => "C005"
  | .duplicateClass _ _ => "C006"
  | .wrongArgumentCount _ _ _ _ => "C007"
  | .literalOutOfRange _ _ => "C008"
  | .notAssignable _ => "C009"
  | .invalidThis _ => "C010"
  | .invalidCallTarget _ => "C011"
  | .invalidNamespace _ => "C012"
  | .inheritanceCycle _ _ => "C013"
  | .tooManyLocals _ _ => "C014"
  | .tooManyArguments _ => "C015"
  | .branchTooFar _ => "C016"
  | .unreadable _ _ => "C017"
  | .format _ => "C090"
  | .internal _ => "C099"

def span? : CompileError → Option Span
  | .undefinedVariable _ s | .undefinedFunction _ s | .undefinedClass _ s
  | .duplicateVariable _ s | .duplicateFunction _ s | .duplicateClass _ s
  | .wrongArgumentCount _ _ _ s | .literalOutOfRange _ s | .notAssignable s | .invalidThis s
  | .invalidCallTarget s | .invalidNamespace s | .inheritanceCycle _ s | .tooManyLocals _ s
  | .tooManyArguments s | .branchTooFar s => some s
  | .unreadable _ _ | .format _ | .internal _ => none

def toDiagnostic (e : CompileError) : Diagnostic :=
  ⟨.error, e.code, e.message, e.span?.getD .synthetic⟩

def ofUnlinked (function : String) : CompileError :=
  .internal ("call to unregistered function '" ++ function ++ "'")

end CompileError

end Lss
