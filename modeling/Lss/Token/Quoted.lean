/-!
String literals. A value is written between double quotes with six escapes; reading one back
tolerates a literal that was cut off before its closing quote.
-/
namespace Lss.Quoted

def escape : Char → List Char
  | '"' => ['\\', '"']
  | '\\' => ['\\', '\\']
  | '\n' => ['\\', 'n']
  | '\r' => ['\\', 'r']
  | '\t' => ['\\', 't']
  | '\x00' => ['\\', '0']
  | c => [c]

def encode (cs : List Char) : List Char := '"' :: cs.flatMap escape ++ ['"']

/-- What a character stands for after a backslash; most stand for themselves. -/
def unescape : Char → Char
  | 'n' => '\n'
  | 'r' => '\r'
  | 't' => '\t'
  | '0' => '\x00'
  | c => c

/-- Resolves escapes in front of what is already read, `acc` in reverse. A lone last backslash
stands for itself. -/
def resolveOnto (acc : List Char) : List Char → List Char
  | [] => acc.reverse
  | ['\\'] => ('\\' :: acc).reverse
  | '\\' :: c :: cs => resolveOnto (unescape c :: acc) cs
  | c :: cs => resolveOnto (c :: acc) cs

def resolve (cs : List Char) : List Char := resolveOnto [] cs

def endsEscaping (cs : List Char) : Bool := (cs.reverse.takeWhile (· == '\\')).length % 2 == 1

/-- The text between the quotes. A last quote that is escaped belongs to the text. -/
def inner (cs : List Char) : List Char :=
  let body := if cs.head? == some '"' then cs.drop 1 else cs
  if body.getLast? == some '"' && !endsEscaping body.dropLast then body.dropLast else body

def decode (cs : List Char) : List Char := resolve (inner cs)

end Lss.Quoted

namespace Lss

def quote (value : String) : String := String.ofList (Quoted.encode value.toList)

def unquote (text : String) : String := String.ofList (Quoted.decode text.toList)

end Lss
