import Lss.Source.Diagnostic
import Lss.Token.Basic

/-!
From source text to tokens. The text is first cut into lexemes, the longest one at each point,
whatever the text holds; spans are laid over them afterwards, so that lexemes tile the text.
-/
namespace Lss.Text

/-- The characters with the `White_Space` property: six controls, the space, and the separators. -/
def isBlank (c : Char) : Bool :=
  let n := c.toNat
  (0x09 ≤ n && n ≤ 0x0D) || n == 0x20 || n == 0x85 || n == 0xA0 || n == 0x1680 ||
    (0x2000 ≤ n && n ≤ 0x200A) || n == 0x2028 || n == 0x2029 || n == 0x202F || n == 0x205F ||
    n == 0x3000

end Lss.Text

namespace Lss

inductive LexFault where
  | stringAtLineEnd
  | stringAtEnd
  | commentAtEnd
  | unexpected (c : Char)
deriving DecidableEq, Repr

namespace LexFault

def code : LexFault → String
  | .stringAtLineEnd => "S001"
  | .stringAtEnd => "S002"
  | .commentAtEnd => "S003"
  | .unexpected _ => "S004"

def message : LexFault → String
  | .stringAtLineEnd => "Unterminated string before end of line"
  | .stringAtEnd => "Unterminated string at end of input"
  | .commentAtEnd => "Unterminated block comment"
  | .unexpected c => "Unexpected character '" ++ c.toString ++ "'"

def toDiagnostic (f : LexFault) (span : Span) : Diagnostic := ⟨.error, f.code, f.message, span⟩

end LexFault

structure Lexeme where
  kind : TokenKind
  text : List Char
  fault : Option LexFault := none
deriving DecidableEq, Repr

namespace Lexeme

def startsWord (c : Char) : Bool := c.isAlpha || c == '_'

def continuesWord (c : Char) : Bool := c.isAlphanum || c == '_'

/-- The longest punctuation mark or operator at the front, and how many characters it has. -/
def mark? : List Char → Option (TokenKind × Nat)
  | '(' :: _ => some (.leftParen, 1)
  | ')' :: _ => some (.rightParen, 1)
  | '\x7b' :: _ => some (.leftBrace, 1)
  | '\x7d' :: _ => some (.rightBrace, 1)
  | '[' :: _ => some (.leftBracket, 1)
  | ']' :: _ => some (.rightBracket, 1)
  | ',' :: _ => some (.comma, 1)
  | ';' :: _ => some (.semicolon, 1)
  | '+' :: _ => some (.binary .add, 1)
  | '-' :: _ => some (.binary .sub, 1)
  | '%' :: _ => some (.binary .mod, 1)
  | '^' :: _ => some (.binary .bitXor, 1)
  | '~' :: _ => some (.tilde, 1)
  | ':' :: ':' :: '$' :: _ => some (.access .dynamicScope, 3)
  | ':' :: ':' :: _ => some (.access .scope, 2)
  | ':' :: _ => some (.colon, 1)
  | '.' :: '$' :: _ => some (.access .dynamicMember, 2)
  | '.' :: _ => some (.access .member, 1)
  | '*' :: '*' :: _ => some (.binary .pow, 2)
  | '*' :: _ => some (.binary .mul, 1)
  | '&' :: '&' :: _ => some (.binary .and, 2)
  | '&' :: _ => some (.binary .bitAnd, 1)
  | '|' :: '|' :: _ => some (.binary .or, 2)
  | '|' :: _ => some (.binary .bitOr, 1)
  | '=' :: '=' :: _ => some (.binary .equal, 2)
  | '=' :: _ => some (.assign, 1)
  | '!' :: '=' :: _ => some (.binary .notEqual, 2)
  | '!' :: _ => some (.bang, 1)
  | '<' :: '<' :: _ => some (.binary .shiftLeft, 2)
  | '<' :: '=' :: _ => some (.binary .lessEqual, 2)
  | '<' :: _ => some (.binary .less, 1)
  | '>' :: '>' :: _ => some (.binary .shiftRight, 2)
  | '>' :: '=' :: _ => some (.binary .greaterEqual, 2)
  | '>' :: _ => some (.binary .greater, 1)
  | '/' :: _ => some (.binary .div, 1)
  | _ => none

def comment (acc : List Char) : List Char → Lexeme × List Char
  | [] => (⟨.comment, acc.reverse, some .commentAtEnd⟩, [])
  | '*' :: '/' :: cs => (⟨.comment, ('/' :: '*' :: acc).reverse, none⟩, cs)
  | c :: cs => comment (c :: acc) cs

/-- The rest of a string literal after what is read, `acc` in reverse. A backslash takes the next
character with it, unless that ends the line. -/
def string (acc : List Char) : List Char → Lexeme × List Char
  | [] => (⟨.string, acc.reverse, some .stringAtEnd⟩, [])
  | '\n' :: cs => (⟨.string, acc.reverse, some .stringAtLineEnd⟩, '\n' :: cs)
  | '"' :: cs => (⟨.string, ('"' :: acc).reverse, none⟩, cs)
  | ['\\'] => (⟨.string, ('\\' :: acc).reverse, some .stringAtEnd⟩, [])
  | '\\' :: '\n' :: cs =>
    (⟨.string, ('\\' :: acc).reverse, some .stringAtLineEnd⟩, '\n' :: cs)
  | '\\' :: c :: cs => string (c :: '\\' :: acc) cs
  | c :: cs => string (c :: acc) cs

def number (cs : List Char) : Lexeme × List Char :=
  let whole := cs.takeWhile Char.isDigit
  let rest := cs.dropWhile Char.isDigit
  match rest with
  | '.' :: d :: more =>
    if d.isDigit then
      (⟨.float, whole ++ '.' :: (d :: more).takeWhile Char.isDigit, none⟩,
        (d :: more).dropWhile Char.isDigit)
    else (⟨.integer, whole, none⟩, rest)
  | _ => (⟨.integer, whole, none⟩, rest)

def word (cs : List Char) : Lexeme × List Char :=
  let text := cs.takeWhile continuesWord
  (⟨.ofWord (String.ofList text), text, none⟩, cs.dropWhile continuesWord)

def first (c : Char) (cs : List Char) : Lexeme × List Char :=
  match c, cs with
  | '/', '/' :: cs =>
    (⟨.comment, '/' :: '/' :: cs.takeWhile (· != '\n'), none⟩, cs.dropWhile (· != '\n'))
  | '/', '*' :: cs => comment ['*', '/'] cs
  | '"', cs => string ['"'] cs
  | c, cs =>
    match mark? (c :: cs) with
    | some (kind, n) => (⟨kind, (c :: cs).take n, none⟩, (c :: cs).drop n)
    | none =>
      if Text.isBlank c then
        (⟨.blank, c :: cs.takeWhile Text.isBlank, none⟩, cs.dropWhile Text.isBlank)
      else if c.isDigit then number (c :: cs)
      else if startsWord c then word (c :: cs)
      else (⟨.invalid, [c], some (.unexpected c)⟩, cs)

/-! Every lexeme takes something from the text, and nothing is lost. -/

theorem comment_append (acc cs : List Char) :
    (comment acc cs).1.text ++ (comment acc cs).2 = acc.reverse ++ cs := by
  fun_induction comment acc cs <;> simp_all

theorem string_append (acc cs : List Char) :
    (string acc cs).1.text ++ (string acc cs).2 = acc.reverse ++ cs := by
  fun_induction string acc cs <;> simp_all

theorem number_append (cs : List Char) : (number cs).1.text ++ (number cs).2 = cs := by
  have h := List.takeWhile_append_dropWhile (p := Char.isDigit) (l := cs)
  unfold number
  simp only
  split
  · next d more hd =>
    split
    · have h' := List.takeWhile_append_dropWhile (p := Char.isDigit) (l := d :: more)
      rw [List.append_assoc, List.cons_append, h', ← hd, h]
    · exact h
  · exact h

theorem word_append (cs : List Char) : (word cs).1.text ++ (word cs).2 = cs :=
  List.takeWhile_append_dropWhile

theorem first_append (c : Char) (cs : List Char) :
    (first c cs).1.text ++ (first c cs).2 = c :: cs := by
  unfold first
  split
  · simp
  · simp [comment_append]
  · simp [string_append]
  · split
    · simp
    · split
      · simp
      · split
        · exact number_append _
        · split
          · exact word_append _
          · rfl

theorem comment_text_ne_nil (acc cs : List Char) (h : acc ≠ []) : (comment acc cs).1.text ≠ [] := by
  fun_induction comment acc cs <;> simp_all

theorem string_text_ne_nil (acc cs : List Char) (h : acc ≠ []) : (string acc cs).1.text ≠ [] := by
  fun_induction string acc cs <;> simp_all

theorem number_text_ne_nil {c : Char} {cs : List Char} (h : c.isDigit = true) :
    (number (c :: cs)).1.text ≠ [] := by
  unfold number
  simp only [List.takeWhile_cons, h, if_true]
  split
  · split <;> simp
  · simp

theorem continuesWord_of_startsWord {c : Char} (h : startsWord c = true) :
    continuesWord c = true := by
  simp only [startsWord, continuesWord, Char.isAlphanum, Bool.or_eq_true] at h ⊢
  exact h.imp_left .inl

theorem mark?_pos {cs : List Char} {kind : TokenKind} {n : Nat} (h : mark? cs = some (kind, n)) :
    0 < n := by
  unfold mark? at h
  split at h <;> simp at h <;> omega

theorem first_text_ne_nil (c : Char) (cs : List Char) : (first c cs).1.text ≠ [] := by
  unfold first
  split
  · simp
  · exact comment_text_ne_nil _ _ (by simp)
  · exact string_text_ne_nil _ _ (by simp)
  · split
    · next h =>
      have := mark?_pos h
      simp only [ne_eq, List.take_eq_nil_iff]
      intro h
      rcases h with h | h
      · omega
      · cases h
    · split
      · simp
      · split
        · next h => exact number_text_ne_nil h
        · split
          · next h => simp [word, continuesWord_of_startsWord h]
          · simp

theorem length_first (c : Char) (cs : List Char) : (first c cs).2.length < (c :: cs).length := by
  have h := congrArg List.length (first_append c cs)
  have h' := List.length_pos_iff.mpr (first_text_ne_nil c cs)
  rw [List.length_append] at h
  omega

def allOnto (acc : List Lexeme) (cs : List Char) : List Lexeme :=
  match cs with
  | [] => acc.reverse
  | c :: cs => allOnto ((first c cs).1 :: acc) (first c cs).2
termination_by cs.length
decreasing_by exact length_first c cs

def all (cs : List Char) : List Lexeme := allOnto [] cs

def size (l : Lexeme) : Nat := l.text.foldl (fun n c => n + c.utf8Size) 0

def newlines (l : Lexeme) : Nat := l.text.count '\n'

end Lexeme

structure Position where
  offset : Nat := 0
  line : Nat := 1
deriving DecidableEq, Repr

def Position.after (p : Position) (l : Lexeme) : Position :=
  ⟨p.offset + l.size, p.line + l.newlines⟩

/-- Lays spans over lexemes, from `p` on; `acc` holds those already laid, in reverse. -/
def placeOnto (file : Option String) (acc : List (Lexeme × Span)) (p : Position) :
    List Lexeme → List (Lexeme × Span) × Position
  | [] => (acc.reverse, p)
  | l :: ls => placeOnto file ((l, ⟨file, p.offset, p.line, l.size⟩) :: acc) (p.after l) ls

/-- The tokens of a text, closed by one of kind `eof`, and what is wrong in it. Blanks and comments
are left out unless asked for. -/
def scan (source : String) (file : Option String) (keepTrivia : Bool) :
    List Token × List Diagnostic :=
  let (placed, p) := placeOnto file [] {} (Lexeme.all source.toList)
  let kept := placed.filter fun x => keepTrivia || !x.1.kind.isTrivia
  let tokens := kept.map fun x => ⟨x.1.kind, String.ofList x.1.text, x.2⟩
  (tokens ++ [⟨.eof, "", ⟨file, p.offset, p.line, 0⟩⟩],
    placed.filterMap fun x => x.1.fault.map (·.toDiagnostic x.2))

end Lss
