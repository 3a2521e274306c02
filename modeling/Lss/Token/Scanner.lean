import Lss.Token.Lexer

/-!
# A scan with a cursor

The scanner goes over a text once, with two characters in view at most. It counts bytes with every
character that it passes, and lines only where a newline can stand: in blanks and in block comments.
The text of a token is what stands between the place where it began and the cursor.
-/
namespace Lss

def charIndices : Nat → List Char → List (Nat × Char)
  | _, [] => []
  | n, c :: cs => (n, c) :: charIndices (n + c.utf8Size) cs

def slice (source : String) (start stop : Nat) : String :=
  .ofList (((charIndices 0 source.toList).filter fun x => start ≤ x.1 && x.1 < stop).map (·.2))

structure Scanner where
  source : String
  file : Option String
  keepTrivia : Bool
  chars : List (Nat × Char)
  /-- Where the lexeme began that is read. -/
  start : Nat := 0
  startLine : Nat := 1
  cursor : Nat := 0
  line : Nat := 1
  /-- Latest first, as are the diagnostics. -/
  tokens : List Token := []
  diagnostics : List Diagnostic := []

namespace Scanner

def peek (s : Scanner) : Option Char := s.chars.head?.map (·.2)

def peekSecond (s : Scanner) : Option Char := s.chars.tail.head?.map (·.2)

def advance (s : Scanner) : Scanner :=
  match s.chars with
  | [] => s
  | (i, c) :: chars => { s with chars, cursor := i + c.utf8Size }

def next? (s : Scanner) (c : Char) : Option Scanner :=
  if s.peek = some c then some s.advance else none

def newline (s : Scanner) : Scanner := { s with line := s.line + 1 }

def span (s : Scanner) : Span := ⟨s.file, s.start, s.startLine, s.cursor - s.start⟩

def text (s : Scanner) : String := slice s.source s.start s.cursor

def report (s : Scanner) (fault : LexFault) : Scanner :=
  { s with diagnostics := fault.toDiagnostic s.span :: s.diagnostics }

theorem length_advance_le (s : Scanner) : s.advance.chars.length ≤ s.chars.length := by
  unfold advance
  split
  · exact Nat.le_refl _
  · next h => simp [h]

theorem length_advance_lt {s : Scanner} {c : Char} (h : s.peek = some c) :
    s.advance.chars.length < s.chars.length := by
  unfold advance
  split
  · next hchars => simp [peek, hchars] at h
  · next hchars => simp [hchars]

/-! The loops inside a lexeme. -/

def advanceWhile (p : Char → Bool) (s : Scanner) : Scanner :=
  match _h : s.peek with
  | none => s
  | some c => if p c then advanceWhile p s.advance else s
termination_by s.chars.length
decreasing_by exact length_advance_lt _h

def blanks (s : Scanner) : Scanner :=
  match _h : s.peek with
  | none => s
  | some c =>
    if Text.isBlank c then blanks (if c = '\n' then s.advance.newline else s.advance) else s
termination_by s.chars.length
decreasing_by split <;> exact length_advance_lt _h

def blockComment (s : Scanner) : Scanner :=
  match _h : s.peek with
  | none => s.report .commentAtEnd
  | some c =>
    if c = '*' ∧ s.advance.peek = some '/' then s.advance.advance
    else blockComment (if c = '\n' then s.advance.newline else s.advance)
termination_by s.chars.length
decreasing_by split <;> exact length_advance_lt _h

def string (s : Scanner) : Scanner :=
  match _h : s.peek with
  | none => s.report .stringAtEnd
  | some '\n' => s.report .stringAtLineEnd
  | some '"' => s.advance
  | some '\\' => string (if s.advance.peek.any (· != '\n') then s.advance.advance else s.advance)
  | some _ => string s.advance
termination_by s.chars.length
decreasing_by
  · have hlt := length_advance_lt _h
    split
    · exact Nat.lt_of_le_of_lt (length_advance_le _) hlt
    · exact hlt
  · exact length_advance_lt _h

def number (s : Scanner) : TokenKind × Scanner :=
  let s := s.advanceWhile Char.isDigit
  if s.peek = some '.' ∧ s.peekSecond.any Char.isDigit then
    (.float, s.advance.advanceWhile Char.isDigit)
  else (.integer, s)

def word (s : Scanner) : TokenKind × Scanner :=
  let s := s.advanceWhile Lexeme.continuesWord
  (.ofWord s.text, s)

/-- A mark of two characters if the second one is `c`, or else of the first one. -/
def either (s : Scanner) (c : Char) (long short : TokenKind) : TokenKind × Scanner :=
  match s.next? c with
  | some s => (long, s)
  | none => (short, s)

/-- The kind of the lexeme that begins with `c`, with the scanner behind `c` and then behind it. -/
def lexeme (c : Char) (s : Scanner) : TokenKind × Scanner :=
  match c with
  | '(' => (.leftParen, s)
  | ')' => (.rightParen, s)
  | '\x7b' => (.leftBrace, s)
  | '\x7d' => (.rightBrace, s)
  | '[' => (.leftBracket, s)
  | ']' => (.rightBracket, s)
  | ',' => (.comma, s)
  | ';' => (.semicolon, s)
  | '+' => (.binary .add, s)
  | '-' => (.binary .sub, s)
  | '%' => (.binary .mod, s)
  | '^' => (.binary .bitXor, s)
  | '~' => (.tilde, s)
  | ':' =>
    match s.next? ':' with
    | some s => s.either '$' (.access .dynamicScope) (.access .scope)
    | none => (.colon, s)
  | '.' => s.either '$' (.access .dynamicMember) (.access .member)
  | '*' => s.either '*' (.binary .pow) (.binary .mul)
  | '&' => s.either '&' (.binary .and) (.binary .bitAnd)
  | '|' => s.either '|' (.binary .or) (.binary .bitOr)
  | '=' => s.either '=' (.binary .equal) .assign
  | '!' => s.either '=' (.binary .notEqual) .bang
  | '<' =>
    match s.next? '<' with
    | some s => (.binary .shiftLeft, s)
    | none => s.either '=' (.binary .lessEqual) (.binary .less)
  | '>' =>
    match s.next? '>' with
    | some s => (.binary .shiftRight, s)
    | none => s.either '=' (.binary .greaterEqual) (.binary .greater)
  | '/' =>
    match s.next? '/' with
    | some s => (.comment, s.advanceWhile (· != '\n'))
    | none =>
      match s.next? '*' with
      | some s => (.comment, s.blockComment)
      | none => (.binary .div, s)
  | '"' => (.string, s.string)
  | c =>
    if Text.isBlank c then (.blank, (if c = '\n' then s.newline else s).blanks)
    else if c.isDigit then s.number
    else if Lexeme.startsWord c then s.word
    else (.invalid, s.report (.unexpected c))

/-- Reads one lexeme, and makes a token of it unless it is trivia that is not asked for. -/
def token (s : Scanner) (i : Nat) (c : Char) : Scanner :=
  let begun : Scanner := { s with start := i, startLine := s.line, cursor := i }
  let (kind, s) := lexeme c begun.advance
  if kind.isTrivia && !s.keepTrivia then s
  else { s with tokens := ⟨kind, s.text, s.span⟩ :: s.tokens }

def run : Nat → Scanner → Scanner
  | 0, s => s
  | n + 1, s =>
    match s.chars with
    | [] => s
    | (i, c) :: _ => run n (s.token i c)

def scan (source : String) (file : Option String) (keepTrivia : Bool) :
    List Token × List Diagnostic :=
  let s := run source.length
    { source, file, keepTrivia, chars := charIndices 0 source.toList }
  ((⟨.eof, "", ⟨file, source.utf8ByteSize, s.line, 0⟩⟩ :: s.tokens).reverse, s.diagnostics.reverse)

end Scanner

end Lss
