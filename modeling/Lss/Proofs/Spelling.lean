import Lss.Token.Lexer

/-!
# Spellings

A significant lexeme without a fault has a kind and a text that belong together. In front of a text
that cannot lengthen it, such a spelling is cut off as one lexeme of that kind; and nothing else is
ever cut off a text.
-/
namespace Lss

inductive Closes : List Char → Prop
  | quote : Closes ['"']
  | escaped {c : Char} {cs : List Char} : c ≠ '\n' → Closes cs → Closes ('\\' :: c :: cs)
  | plain {c : Char} {cs : List Char} : c ≠ '\n' → c ≠ '"' → c ≠ '\\' → Closes cs →
      Closes (c :: cs)

def TokenKind.isMark : TokenKind → Bool
  | .leftParen | .rightParen | .leftBrace | .rightBrace | .leftBracket | .rightBracket
  | .comma | .semicolon | .colon | .access _ | .assign | .bang | .tilde | .binary _ => true
  | _ => false

def TokenKind.isBracket : TokenKind → Bool
  | .leftParen | .rightParen | .leftBrace | .rightBrace | .leftBracket | .rightBracket
  | .comma | .semicolon => true
  | _ => false

inductive Spells : TokenKind → List Char → Prop
  | word {c : Char} {cs : List Char} : Lexeme.startsWord c → (∀ d ∈ cs, Lexeme.continuesWord d) →
      Spells (.ofWord (String.ofList (c :: cs))) (c :: cs)
  | integer {c : Char} {cs : List Char} : (∀ d ∈ c :: cs, d.isDigit) → Spells .integer (c :: cs)
  | float {c d : Char} {cs ds : List Char} : (∀ e ∈ c :: cs, e.isDigit) →
      (∀ e ∈ d :: ds, e.isDigit) → Spells .float (c :: cs ++ '.' :: d :: ds)
  | string {cs : List Char} : Closes cs → Spells .string ('"' :: cs)
  | mark {kind : TokenKind} {text : String} : kind.isMark → kind.lexeme? = some text →
      Spells kind text.toList

def Apart (next : List Char) : Prop :=
  (∀ c ∈ next.head?, Lexeme.continuesWord c = false) ∧
    ∀ d cs, next = '.' :: d :: cs → d.isDigit = false

namespace Lexeme

def startsMark (c : Char) : Bool :=
  ['(', ')', '\x7b', '\x7d', '[', ']', ',', ';', '+', '-', '%', '^', '~', ':', '.', '*', '&', '|',
    '=', '!', '<', '>', '/'].contains c

def lengthensMark (c : Char) : Bool :=
  [':', '$', '*', '&', '|', '=', '<', '>', '/'].contains c

/-! The classes of characters at which lexemes start have nothing in common. -/

theorem continuesWord_of_isDigit {c : Char} (h : c.isDigit) : continuesWord c := by
  show (c.isAlpha || c.isDigit || c == '_') = true
  simp [h]

theorem startsMark_eq_false {c : Char} (h : continuesWord c) : startsMark c = false := by
  have marks : ['(', ')', '\x7b', '\x7d', '[', ']', ',', ';', '+', '-', '%', '^', '~', ':', '.',
      '*', '&', '|', '=', '!', '<', '>', '/'].all (!continuesWord ·) := by decide
  cases hm : startsMark c with
  | false => rfl
  | true => simpa [h] using List.all_eq_true.mp marks c (List.contains_iff_mem.mp hm)

theorem lengthensMark_eq_false {c : Char} (h : continuesWord c) : lengthensMark c = false := by
  have marks : [':', '$', '*', '&', '|', '=', '<', '>', '/'].all (!continuesWord ·) := by decide
  cases hm : lengthensMark c with
  | false => rfl
  | true => simpa [h] using List.all_eq_true.mp marks c (List.contains_iff_mem.mp hm)

theorem ne_quote {c : Char} (h : continuesWord c) : c ≠ '"' := by
  rintro rfl
  exact absurd h (by decide)

theorem toNat_of_isAlpha {c : Char} (h : c.isAlpha) :
    (65 ≤ c.toNat ∧ c.toNat ≤ 90) ∨ (97 ≤ c.toNat ∧ c.toNat ≤ 122) := by
  have h : (decide (c.val ≥ 'A'.val ∧ c.val ≤ 'Z'.val) ||
      (decide (c.val ≥ 'a'.val) && decide (c.val ≤ 'z'.val))) = true := h
  simp only [Bool.or_eq_true, Bool.and_eq_true, decide_eq_true_eq, ge_iff_le,
    UInt32.le_iff_toNat_le] at h
  exact h

theorem toNat_of_isDigit {c : Char} (h : c.isDigit) : 48 ≤ c.toNat ∧ c.toNat ≤ 57 := by
  have h : (decide (c.val ≥ '0'.val) && decide (c.val ≤ '9'.val)) = true := h
  simp only [Bool.and_eq_true, decide_eq_true_eq, ge_iff_le, UInt32.le_iff_toNat_le] at h
  exact h

/-- The codes of the characters that words and numbers are made of. -/
theorem toNat_of_continuesWord {c : Char} (h : continuesWord c) :
    (48 ≤ c.toNat ∧ c.toNat ≤ 57) ∨ (65 ≤ c.toNat ∧ c.toNat ≤ 90) ∨ c.toNat = 95 ∨
      (97 ≤ c.toNat ∧ c.toNat ≤ 122) := by
  have h : (c.isAlpha || c.isDigit || c == '_') = true := h
  simp only [Bool.or_eq_true, beq_iff_eq] at h
  rcases h with (h | h) | h
  · have := toNat_of_isAlpha h
    omega
  · exact .inl (toNat_of_isDigit h)
  · subst h
    exact .inr (.inr (.inl rfl))

theorem isBlank_eq_false {c : Char} (h : continuesWord c) : Text.isBlank c = false := by
  have := toNat_of_continuesWord h
  simp only [Text.isBlank, Bool.or_eq_false_iff, Bool.and_eq_false_iff, decide_eq_false_iff_not,
    beq_eq_false_iff_ne]
  omega

theorem isDigit_eq_false {c : Char} (h : startsWord c) : c.isDigit = false := by
  cases hd : c.isDigit with
  | false => rfl
  | true =>
    have hdigit := toNat_of_isDigit hd
    simp only [startsWord, Bool.or_eq_true, beq_iff_eq] at h
    rcases h with h | h
    · have := toNat_of_isAlpha h
      omega
    · subst h
      cases hd

theorem startsMark_of_isBlank {c : Char} (h : Text.isBlank c) : startsMark c = false := by
  have marks : ['(', ')', '\x7b', '\x7d', '[', ']', ',', ';', '+', '-', '%', '^', '~', ':', '.',
      '*', '&', '|', '=', '!', '<', '>', '/'].all (!Text.isBlank ·) := by decide
  cases hm : startsMark c with
  | false => rfl
  | true => simpa [h] using List.all_eq_true.mp marks c (List.contains_iff_mem.mp hm)

/-! Marks. -/

theorem startsMark_of_mark? {c : Char} {cs : List Char} {r : TokenKind × Nat}
    (h : mark? (c :: cs) = some r) : startsMark c := by
  unfold mark? at h
  split at h
  all_goals first
    | (next heq => obtain ⟨rfl, -⟩ := List.cons.inj heq; rfl)
    | cases h

theorem mark?_eq_none {c : Char} (h : startsMark c = false) (cs : List Char) :
    mark? (c :: cs) = none := by
  cases hm : mark? (c :: cs) with
  | none => rfl
  | some r => rw [startsMark_of_mark? hm] at h; cases h

/-- A mark is found at the front of a text that does not go on with a longer one. -/
theorem mark?_append {kind : TokenKind} {text : String} {next : List Char} (hm : kind.isMark)
    (ht : kind.lexeme? = some text)
    (hn : kind.isBracket = false → ∀ d ∈ next.head?, lengthensMark d = false) :
    mark? (text.toList ++ next) = some (kind, text.toList.length) := by
  have apart (hb : kind.isBracket = false) :
      ∀ d, lengthensMark d = true → ∀ tail, next = d :: tail → False := by
    rintro d hd tail rfl
    rw [hn hb d rfl] at hd
    cases hd
  cases kind <;> cases hm <;> cases ht
  case access op =>
    cases op <;>
      simp only [AccessOp.text, String.reduceToList, List.cons_append, List.nil_append] <;>
      rw [mark?]
    all_goals first
      | rfl
      | exact apart rfl _ rfl
  case binary op =>
    cases op <;>
      simp only [BinaryOp.text, String.reduceToList, List.cons_append, List.nil_append] <;>
      rw [mark?]
    all_goals first
      | rfl
      | exact apart rfl _ rfl
  all_goals
    simp only [String.reduceToList, List.cons_append, List.nil_append]
    rw [mark?]
    all_goals first
      | rfl
      | exact apart rfl _ rfl
      | exact fun tail h => apart rfl ':' rfl _ h

/-- What is found is a mark, with all of its text. -/
theorem mark?_found {cs : List Char} {kind : TokenKind} {n : Nat}
    (h : mark? cs = some (kind, n)) :
    kind.isMark ∧ kind.lexeme? = some (String.ofList (cs.take n)) := by
  unfold mark? at h
  split at h
  all_goals first
    | (cases h; exact ⟨rfl, rfl⟩)
    | cases h

theorem mark?_spells {cs : List Char} {kind : TokenKind} {n : Nat}
    (h : mark? cs = some (kind, n)) : Spells kind (cs.take n) := by
  obtain ⟨hmark, hlexeme⟩ := mark?_found h
  have := Spells.mark hmark hlexeme
  rwa [String.toList_ofList] at this

/-! String literals. -/

theorem string_append_of_closes {acc cs next : List Char} (h : Closes cs) :
    string acc (cs ++ next) = (⟨.string, acc.reverse ++ cs, none⟩, next) := by
  induction h generalizing acc with
  | quote => simp [string]
  | @escaped c cs hc _ ih =>
    rw [List.cons_append, List.cons_append, string, ih]
    · simp
    · exact fun h => hc h
  | @plain c cs hn hq hb _ ih =>
    rw [List.cons_append, string, ih]
    · simp
    · exact fun h => hn h
    · exact fun h => hq h
    · exact fun h _ => hb h
    · exact fun _ h _ => hb h
    · exact fun _ _ h _ => hb h

theorem string_kind (acc cs : List Char) : (string acc cs).1.kind = .string := by
  fun_induction string acc cs <;> simp_all

theorem string_spells {acc cs : List Char} (h : (string acc cs).1.fault = none) :
    ∃ body, Closes body ∧ (string acc cs).1.text = acc.reverse ++ body := by
  fun_induction string acc cs
  case case1 | case2 | case4 | case5 => cases h
  case case3 cs => exact ⟨_, .quote, by simp⟩
  case case6 acc c cs hc ih =>
    obtain ⟨body, hbody, ht⟩ := ih h
    exact ⟨_, .escaped hc hbody, by simp [ht]⟩
  case case7 acc c cs hn hq hlast _ hmore ih =>
    have hb : c ≠ '\\' := by
      rintro rfl
      cases cs with
      | nil => exact hlast rfl rfl
      | cons d cs => exact hmore d cs rfl rfl
    obtain ⟨body, hbody, ht⟩ := ih h
    exact ⟨_, .plain hn hq hb hbody, by simp [ht]⟩

/-! Words and numbers. -/

theorem takeWhile_append {p : Char → Bool} {cs next : List Char} (h : ∀ c ∈ cs, p c)
    (hn : ∀ c ∈ next.head?, p c = false) : (cs ++ next).takeWhile p = cs := by
  rw [List.takeWhile_append_of_pos h]
  cases next with
  | nil => simp
  | cons c next => simp [hn c rfl]

theorem dropWhile_append {p : Char → Bool} {cs next : List Char} (h : ∀ c ∈ cs, p c)
    (hn : ∀ c ∈ next.head?, p c = false) : (cs ++ next).dropWhile p = next := by
  rw [List.dropWhile_append_of_pos h]
  cases next with
  | nil => simp
  | cons c next => simp [hn c rfl]

theorem of_mem_takeWhile {p : Char → Bool} {c : Char} {cs : List Char} (h : c ∈ cs.takeWhile p) :
    p c :=
  List.all_eq_true.mp List.all_takeWhile c h

theorem head_not_isDigit {next : List Char} (h : Apart next) :
    ∀ c ∈ next.head?, c.isDigit = false := by
  intro c hc
  cases hd : c.isDigit with
  | false => rfl
  | true => exact absurd (continuesWord_of_isDigit hd) (by simp [h.1 c hc])

theorem number_integer {cs next : List Char} (h : ∀ c ∈ cs, c.isDigit) (hn : Apart next) :
    number (cs ++ next) = (⟨.integer, cs, none⟩, next) := by
  unfold number
  rw [takeWhile_append h (head_not_isDigit hn), dropWhile_append h (head_not_isDigit hn)]
  simp only
  split
  · next d more => simp [hn.2 d more rfl]
  · rfl

theorem number_float {cs ds next : List Char} {d : Char} (h : ∀ c ∈ cs, c.isDigit)
    (hd : ∀ c ∈ d :: ds, c.isDigit) (hn : Apart next) :
    number (cs ++ '.' :: d :: ds ++ next) = (⟨.float, cs ++ '.' :: d :: ds, none⟩, next) := by
  have hpoint : ∀ c ∈ ('.' :: d :: ds ++ next).head?, c.isDigit = false := by
    intro c hc
    cases hc
    rfl
  unfold number
  rw [List.append_assoc, takeWhile_append h hpoint, dropWhile_append h hpoint]
  simp only [List.cons_append, hd d List.mem_cons_self, if_true]
  rw [← List.cons_append, takeWhile_append hd (head_not_isDigit hn),
    dropWhile_append hd (head_not_isDigit hn)]

theorem number_spells {c : Char} {cs : List Char} (h : c.isDigit) :
    Spells (number (c :: cs)).1.kind (number (c :: cs)).1.text := by
  have whole : ∀ e ∈ c :: cs.takeWhile Char.isDigit, e.isDigit := by
    intro e he
    cases he with
    | head => exact h
    | tail _ he => exact of_mem_takeWhile he
  unfold number
  simp only [List.takeWhile_cons_of_pos h]
  split
  · next d more _ =>
    split
    · next hd =>
      rw [List.takeWhile_cons_of_pos hd]
      refine .float whole ?_
      intro e he
      cases he with
      | head => exact hd
      | tail _ he => exact of_mem_takeWhile he
    · exact .integer whole
  · exact .integer whole

theorem word_append_of_apart {cs next : List Char} (h : ∀ c ∈ cs, continuesWord c)
    (hn : Apart next) : word (cs ++ next) = (⟨.ofWord (String.ofList cs), cs, none⟩, next) := by
  unfold word
  rw [takeWhile_append h hn.1, dropWhile_append h hn.1]

theorem word_spells {c : Char} {cs : List Char} (h : startsWord c) :
    Spells (word (c :: cs)).1.kind (word (c :: cs)).1.text := by
  unfold word
  rw [List.takeWhile_cons_of_pos (continuesWord_of_startsWord h)]
  exact .word h fun _ => of_mem_takeWhile

/-! All lexemes. -/

/-- At a character that starts no mark, its class decides. -/
theorem first_unmarked {c : Char} (hm : startsMark c = false) (hq : c ≠ '"') (cs : List Char) :
    first c cs =
      if Text.isBlank c then
        (⟨.blank, c :: cs.takeWhile Text.isBlank, none⟩, cs.dropWhile Text.isBlank)
      else if c.isDigit then number (c :: cs)
      else if startsWord c then word (c :: cs)
      else (⟨.invalid, [c], some (.unexpected c)⟩, cs) := by
  unfold first
  split
  · cases hm
  · cases hm
  · exact absurd rfl hq
  · rw [mark?_eq_none hm]

/-- Two slashes, or a slash and a star, begin no mark. -/
theorem first_marked {c : Char} {cs : List Char} {kind : TokenKind} {n : Nat}
    (h : mark? (c :: cs) = some (kind, n))
    (hc : c = '/' → ∀ d ∈ cs.head?, lengthensMark d = false) :
    first c cs = (⟨kind, (c :: cs).take n, none⟩, (c :: cs).drop n) := by
  unfold first
  split
  · exact absurd (hc rfl '/' rfl) (by decide)
  · exact absurd (hc rfl '*' rfl) (by decide)
  · cases h
  · rw [h]

theorem first_blank {c : Char} (h : Text.isBlank c) (cs : List Char) :
    first c cs = (⟨.blank, c :: cs.takeWhile Text.isBlank, none⟩, cs.dropWhile Text.isBlank) := by
  have hq : c ≠ '"' := by
    rintro rfl
    exact absurd h (by decide)
  rw [first_unmarked (startsMark_of_isBlank h) hq, if_pos h]

theorem first_digit {c : Char} (h : c.isDigit) (cs : List Char) :
    first c cs = number (c :: cs) := by
  have hw := continuesWord_of_isDigit h
  rw [first_unmarked (startsMark_eq_false hw) (ne_quote hw), isBlank_eq_false hw, if_neg (by simp),
    if_pos h]

theorem first_word {c : Char} (h : startsWord c) (cs : List Char) :
    first c cs = word (c :: cs) := by
  have hw := continuesWord_of_startsWord h
  rw [first_unmarked (startsMark_eq_false hw) (ne_quote hw), isBlank_eq_false hw, if_neg (by simp),
    isDigit_eq_false h, if_neg (by simp), if_pos h]

/-- A spelling that is not a mark is cut off before a text apart from it. -/
theorem first_append_of_spells {kind : TokenKind} {c : Char} {cs next : List Char}
    (h : Spells kind (c :: cs)) (hk : kind.isMark = false) (hn : Apart next) :
    first c (cs ++ next) = (⟨kind, c :: cs, none⟩, next) := by
  generalize ht : c :: cs = text at h
  cases h with
  | @word c' cs' hc hcs =>
    obtain ⟨rfl, rfl⟩ := List.cons.inj ht
    have hall : ∀ d ∈ c :: cs, continuesWord d := by
      intro d hd
      cases hd with
      | head => exact continuesWord_of_startsWord hc
      | tail _ hd => exact hcs d hd
    rw [first_word hc, ← List.cons_append, word_append_of_apart hall hn]
  | integer hcs =>
    cases ht
    rw [first_digit (hcs c List.mem_cons_self), ← List.cons_append, number_integer hcs hn]
  | float hcs hds =>
    obtain ⟨rfl, rfl⟩ := List.cons.inj ht
    rw [first_digit (hcs c List.mem_cons_self)]
    exact number_float hcs hds hn
  | string hcs =>
    obtain ⟨rfl, rfl⟩ := List.cons.inj ht
    exact string_append_of_closes hcs
  | mark hm => rw [hm] at hk; cases hk

/-- The same for a mark, before a text that does not go on with a longer one. -/
theorem first_append_of_mark {kind : TokenKind} {text : String} {c : Char} {cs next : List Char}
    (hm : kind.isMark) (ht : kind.lexeme? = some text) (hc : text.toList = c :: cs)
    (hn : kind.isBracket = false → ∀ d ∈ next.head?, lengthensMark d = false) :
    first c (cs ++ next) = (⟨kind, c :: cs, none⟩, next) := by
  have h := mark?_append hm ht hn
  rw [hc, List.cons_append] at h
  rw [first_marked h]
  · simp
  · rintro rfl
    have hkind : cs = [] ∧ kind.isBracket = false := by
      cases kind <;> cases hm <;> cases ht
      case access op => cases op <;> cases hc
      case binary op => cases op <;> cases hc; exact ⟨rfl, rfl⟩
      all_goals cases hc
    rw [hkind.1, List.nil_append]
    exact hn hkind.2

theorem comment_kind (acc cs : List Char) : (comment acc cs).1.kind = .comment := by
  fun_induction comment acc cs <;> simp_all

/-- A significant lexeme without a fault is a spelling of its kind. -/
theorem first_spells (c : Char) (cs : List Char) : (first c cs).1.fault = none →
    (first c cs).1.kind.isTrivia = false → Spells (first c cs).1.kind (first c cs).1.text := by
  unfold first
  split
  · intro _ ht
    cases ht
  · intro _ ht
    rw [comment_kind] at ht
    cases ht
  · intro hf _
    obtain ⟨body, hbody, htext⟩ := string_spells hf
    rw [string_kind, htext]
    exact .string hbody
  · split
    · next h =>
      intro _ _
      exact mark?_spells h
    · split
      · intro _ ht
        cases ht
      · split
        · next hd =>
          intro _ _
          exact number_spells hd
        · split
          · next hw =>
            intro _ _
            exact word_spells hw
          · intro hf _
            cases hf

end Lexeme

end Lss
