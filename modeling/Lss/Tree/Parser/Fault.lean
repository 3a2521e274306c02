import Lss.Source.Diagnostic
import Lss.Token.Basic

/-!
What a parser complains about.
-/
namespace Lss

inductive ParseFault where
  | expectedExpression
  /-- A kind that must come next, where in the grammar, and what came. -/
  | expectedToken (kind : TokenKind) (context : String) (found : Token)
  | expectedIdentifier (context : String) (found : Token)
  | expectedMember
  | expectedDeclaration
  | expectedClassMember
  | misplacedDeclaration (kind : TokenKind)
  | tooManyParameters (function : String)
  | tooManyArguments

namespace ParseFault

/-- The most parameters or arguments that a call can pass. -/
def maxArguments : Nat := 255

def code : ParseFault → String
  | .expectedExpression => "P001"
  | .expectedToken _ _ _ => "P002"
  | .expectedIdentifier _ _ | .expectedMember => "P003"
  | .expectedDeclaration | .expectedClassMember => "P004"
  | .misplacedDeclaration _ => "P005"
  | .tooManyParameters _ | .tooManyArguments => "P006"

private def describe (t : Token) : String :=
  if t.kind = .eof then "end of file" else "'" ++ t.text ++ "'"

def message : ParseFault → String
  | .expectedExpression => "Expected expression"
  | .expectedToken kind context found =>
    "Expected " ++ kind.display ++ " " ++ context ++ ", found " ++ describe found
  | .expectedIdentifier context found =>
    "Expected identifier " ++ context ++ ", found " ++ describe found
  | .expectedMember => "Expected member name after '.'"
  | .expectedDeclaration => "Expected 'function', 'class' or 'global'"
  | .expectedClassMember => "Expected 'property' or 'function' in class body"
  | .misplacedDeclaration kind =>
    kind.display ++ " declarations are not allowed inside a function body"
  | .tooManyParameters function =>
    "Function '" ++ function ++ "' has more than " ++ toString maxArguments ++ " parameters"
  | .tooManyArguments => "More than " ++ toString maxArguments ++ " arguments"

def at_ (f : ParseFault) (t : Token) : Diagnostic := ⟨.error, f.code, f.message, t.span⟩

end ParseFault

end Lss
