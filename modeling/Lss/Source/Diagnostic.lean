import Lss.Source.Span

/-!
Problems found in a source text. Codes are stable: `S` lexical, `P` grammatical, `C` semantic,
`W` accepted but suspicious.
-/
namespace Lss

inductive Severity where
  | error
  | warning
deriving DecidableEq, Repr

def Severity.text : Severity → String
  | .error => "error"
  | .warning => "warning"

structure Diagnostic where
  severity : Severity
  code : String
  message : String
  span : Span
deriving DecidableEq, Repr

namespace Diagnostic

def isError (d : Diagnostic) : Bool := d.severity == .error

def text (d : Diagnostic) : String :=
  d.span.text ++ ": " ++ d.severity.text ++ "[" ++ d.code ++ "]: " ++ d.message

end Diagnostic

end Lss
