import Lss.Binary32.Decimal
import Lss.Source.Span
import Lss.Token.Kind
import Lss.Token.Quoted

/-!
Lexical tokens: a kind, the text as it stands in the source, and where it stands.
-/
namespace Lss

structure Token where
  kind : TokenKind
  text : String
  span : Span
deriving DecidableEq, Repr

namespace Token

def synthetic (kind : TokenKind) (text : String) : Token := ⟨kind, text, .synthetic⟩

def of (kind : TokenKind) : Token := synthetic kind (kind.lexeme?.getD "")

def identifier (name : String) : Token := synthetic .identifier name

def integer (value : Int) : Token := synthetic .integer (toString value)

/-- Floats in source text are always positional. -/
def floatStyle : Binary32.Style := ⟨.up, fun _ => true, false⟩

def float (value : Binary32) : Token := synthetic .float (value.text floatStyle)

def string (value : String) : Token := synthetic .string (quote value)

def stringValue (t : Token) : String := unquote t.text

end Token

end Lss
