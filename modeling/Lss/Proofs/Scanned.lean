import Lss.Proofs.Tiling
import Lss.Token.Scanner

/-!
# What the scanner finds

In front of a lexeme the scanner reads just that: it ends behind it, and its cursor and its line
have moved by the bytes and the newlines of the text that is passed. So it finds what cutting the
text into lexemes and laying spans over them finds, and its tokens tile the text.
-/
namespace Lss

namespace Scanner

/-! What the scanner has in front of it. -/

def Reads (s : Scanner) (cs : List Char) : Prop := s.chars = charIndices s.cursor cs

def bytes (cs : List Char) : Nat := (String.ofList cs).utf8ByteSize

@[simp] theorem bytes_nil : bytes [] = 0 := rfl

@[simp] theorem bytes_append (a b : List Char) : bytes (a ++ b) = bytes a + bytes b := by
  simp [bytes, String.ofList_append]

@[simp] theorem bytes_cons (c : Char) (cs : List Char) :
    bytes (c :: cs) = c.utf8Size + bytes cs := by
  simp [bytes, String.ofList_cons]

def past (s : Scanner) (text rest : List Char) : Scanner :=
  { s with
    chars := charIndices (s.cursor + bytes text) rest
    cursor := s.cursor + bytes text
    line := s.line + text.count '\n' }

variable {s : Scanner} {c d : Char} {cs text rest : List Char}

theorem reads_past : (s.past text rest).Reads rest := rfl

theorem past_nil (h : s.Reads cs) : s.past [] cs = s := by
  unfold Reads at h
  simp [past, ← h]

theorem past_past (a b r r' : List Char) : (s.past a r).past b r' = s.past (a ++ b) r' := by
  simp [past, Nat.add_assoc]

theorem map_snd_charIndices (n : Nat) (cs : List Char) : (charIndices n cs).map (·.2) = cs := by
  induction cs generalizing n with
  | nil => rfl
  | cons c cs ih => rw [charIndices, List.map_cons, ih]

theorem peek_eq (h : s.Reads cs) : s.peek = cs.head? := by
  rw [peek, h, ← List.head?_map, map_snd_charIndices]

theorem peekSecond_eq (h : s.Reads cs) : s.peekSecond = cs.tail.head? := by
  rw [peekSecond, h, ← List.head?_map, List.map_tail, map_snd_charIndices]

theorem advance_eq (h : s.Reads (c :: cs)) (hc : c ≠ '\n') : s.advance = s.past [c] cs := by
  unfold Reads at h
  simp [advance, h, charIndices, past, hc]

/-- A step over a character that may end a line. -/
theorem advance_line_eq (h : s.Reads (c :: cs)) :
    (if c = '\n' then s.advance.newline else s.advance) = s.past [c] cs := by
  by_cases hc : c = '\n'
  · unfold Reads at h
    simp [hc, advance, h, charIndices, past, newline]
  · rw [if_neg hc, advance_eq h hc]

theorem next?_self (h : s.Reads (c :: cs)) (hc : c ≠ '\n') : s.next? c = some (s.past [c] cs) := by
  rw [next?, peek_eq h, List.head?_cons, if_pos rfl, advance_eq h hc]

theorem next?_other (h : s.Reads cs) (hc : cs.head? ≠ some c) : s.next? c = none := by
  rw [next?, peek_eq h, if_neg hc]

/-! What the loops pass. -/

theorem advanceWhile_eq {p : Char → Bool} (hp : p '\n' = false) (h : s.Reads cs) :
    s.advanceWhile p = s.past (cs.takeWhile p) (cs.dropWhile p) := by
  induction cs generalizing s with
  | nil =>
    rw [advanceWhile]
    split
    · exact (past_nil h).symm
    · next hpeek => cases hpeek.symm.trans (peek_eq h)
  | cons c cs ih =>
    rw [advanceWhile]
    split
    · next hpeek => cases hpeek.symm.trans (peek_eq h)
    · next hpeek =>
      cases hpeek.symm.trans (peek_eq h)
      by_cases hc : p c
      · have hne : c ≠ '\n' := by
          rintro rfl
          rw [hp] at hc
          cases hc
        rw [if_pos hc, advance_eq h hne, ih reads_past, past_past, List.takeWhile_cons_of_pos hc,
          List.dropWhile_cons_of_pos hc]
        rfl
      · rw [if_neg hc, List.takeWhile_cons_of_neg hc, List.dropWhile_cons_of_neg hc, past_nil h]

theorem blanks_eq (h : s.Reads cs) :
    s.blanks = s.past (cs.takeWhile Text.isBlank) (cs.dropWhile Text.isBlank) := by
  induction cs generalizing s with
  | nil =>
    rw [blanks]
    split
    · exact (past_nil h).symm
    · next hpeek => cases hpeek.symm.trans (peek_eq h)
  | cons c cs ih =>
    rw [blanks]
    split
    · next hpeek => cases hpeek.symm.trans (peek_eq h)
    · next hpeek =>
      cases hpeek.symm.trans (peek_eq h)
      rw [advance_line_eq h]
      by_cases hc : Text.isBlank c
      · rw [if_pos hc, ih reads_past, past_past, List.takeWhile_cons_of_pos hc,
          List.dropWhile_cons_of_pos hc]
        rfl
      · rw [if_neg hc, List.takeWhile_cons_of_neg hc, List.dropWhile_cons_of_neg hc, past_nil h]

def settle (s : Scanner) (fault : Option LexFault) : Scanner := fault.elim s s.report

theorem blockComment_eq (h : s.Reads cs) (acc : List Char) :
    ∃ text, (Lexeme.comment acc cs).1.text = acc.reverse ++ text ∧
      s.blockComment = (s.past text (Lexeme.comment acc cs).2).settle
        (Lexeme.comment acc cs).1.fault := by
  fun_induction Lexeme.comment acc cs generalizing s with
  | case1 acc =>
    refine ⟨[], (List.append_nil _).symm, ?_⟩
    rw [blockComment, past_nil h]
    split
    · rfl
    · next hpeek => cases hpeek.symm.trans (peek_eq h)
  | case2 acc cs =>
    refine ⟨['*', '/'], by simp, ?_⟩
    have hstar : s.advance = s.past ['*'] ('/' :: cs) := advance_eq h (by decide)
    have hslash : (s.past ['*'] ('/' :: cs)).advance = (s.past ['*'] ('/' :: cs)).past ['/'] cs :=
      advance_eq reads_past (by decide)
    rw [blockComment]
    split
    · next hpeek => cases hpeek.symm.trans (peek_eq h)
    · next hpeek =>
      cases hpeek.symm.trans (peek_eq h)
      rw [hstar, if_pos ⟨rfl, peek_eq reads_past⟩, hslash, past_past]
      rfl
  | case3 acc c cs hne ih =>
    obtain ⟨text, htext, hs⟩ := ih (s := s.past [c] cs) reads_past
    refine ⟨c :: text, by rw [htext]; simp, ?_⟩
    rw [blockComment]
    split
    · next hpeek => cases hpeek.symm.trans (peek_eq h)
    · next hpeek =>
      cases hpeek.symm.trans (peek_eq h)
      have hopen : ¬ (c = '*' ∧ s.advance.peek = some '/') := by
        rintro ⟨rfl, hslash⟩
        rw [advance_eq h (by decide), peek_eq reads_past] at hslash
        obtain ⟨cs', rfl⟩ := List.head?_eq_some_iff.mp hslash
        exact hne cs' rfl rfl
      rw [if_neg hopen, advance_line_eq h, hs, past_past]
      rfl

theorem string_nil (h : s.Reads []) : s.string = s.report .stringAtEnd := by
  rw [string]
  split
  · rfl
  all_goals next hpeek => cases hpeek.symm.trans (peek_eq h)

theorem string_newline (h : s.Reads ('\n' :: cs)) : s.string = s.report .stringAtLineEnd := by
  rw [string]
  split
  · next hpeek => cases hpeek.symm.trans (peek_eq h)
  · rfl
  · next hpeek => cases hpeek.symm.trans (peek_eq h)
  · next hpeek => cases hpeek.symm.trans (peek_eq h)
  · next hpeek =>
    cases hpeek.symm.trans (peek_eq h)
    contradiction

theorem string_escape (h : s.Reads ('\\' :: cs)) :
    s.string = (if cs.head?.any (· != '\n') then (s.past ['\\'] cs).advance
      else s.past ['\\'] cs).string := by
  rw [string]
  split
  · next hpeek => cases hpeek.symm.trans (peek_eq h)
  · next hpeek => cases hpeek.symm.trans (peek_eq h)
  · next hpeek => cases hpeek.symm.trans (peek_eq h)
  · rw [advance_eq h (by decide), peek_eq reads_past]
  · next hpeek =>
    cases hpeek.symm.trans (peek_eq h)
    contradiction

theorem string_eq (h : s.Reads cs) (acc : List Char) :
    ∃ text, (Lexeme.string acc cs).1.text = acc.reverse ++ text ∧
      s.string = (s.past text (Lexeme.string acc cs).2).settle (Lexeme.string acc cs).1.fault := by
  fun_induction Lexeme.string acc cs generalizing s with
  | case1 acc =>
    refine ⟨[], (List.append_nil _).symm, ?_⟩
    rw [string_nil h, past_nil h]
    rfl
  | case2 acc cs =>
    refine ⟨[], (List.append_nil _).symm, ?_⟩
    rw [string_newline h, past_nil h]
    rfl
  | case3 acc cs =>
    refine ⟨['"'], by simp, ?_⟩
    rw [string]
    split
    · next hpeek => cases hpeek.symm.trans (peek_eq h)
    · next hpeek => cases hpeek.symm.trans (peek_eq h)
    · exact advance_eq h (by decide)
    · next hpeek => cases hpeek.symm.trans (peek_eq h)
    · next hpeek =>
      cases hpeek.symm.trans (peek_eq h)
      contradiction
  | case4 acc =>
    refine ⟨['\\'], by simp, ?_⟩
    rw [string_escape h, if_neg (by simp), string_nil reads_past]
    rfl
  | case5 acc cs =>
    refine ⟨['\\'], by simp, ?_⟩
    rw [string_escape h, if_neg (by simp), string_newline reads_past]
    rfl
  | case6 acc c cs hne ih =>
    obtain ⟨text, htext, hs⟩ := ih (s := s.past ['\\', c] cs) reads_past
    have hc : c ≠ '\n' := hne
    refine ⟨'\\' :: c :: text, by rw [htext]; simp, ?_⟩
    rw [string_escape h, if_pos (by simpa using hc), advance_eq reads_past hc, past_past]
    simpa [past_past] using hs
  | case7 acc c cs hline hquote hlast hescape hother ih =>
    obtain ⟨text, htext, hs⟩ := ih (s := s.past [c] cs) reads_past
    refine ⟨c :: text, by rw [htext]; simp, ?_⟩
    have hback : c ≠ '\\' := by
      rintro rfl
      cases cs with
      | nil => exact hlast rfl rfl
      | cons d cs => exact hother d cs rfl rfl
    rw [string]
    split
    · next hpeek => cases hpeek.symm.trans (peek_eq h)
    · next hpeek =>
      cases hpeek.symm.trans (peek_eq h)
      exact absurd rfl hline
    · next hpeek =>
      cases hpeek.symm.trans (peek_eq h)
      exact absurd rfl hquote
    · next hpeek =>
      cases hpeek.symm.trans (peek_eq h)
      exact absurd rfl hback
    · rw [advance_eq h hline, hs, past_past]
      rfl

/-- Read as `r`, the lexeme in front of the scanner is `l`, with what is left behind it. -/
def Ends (s : Scanner) (r : TokenKind × Scanner) (l : Lexeme × List Char) : Prop :=
  r = (l.1.kind, (s.past l.1.text l.2).settle l.1.fault)

theorem ends_either {long short : TokenKind} {front : List Char}
    {f : List Char → Lexeme × List Char} (hd : d ≠ '\n')
    (hlong : ∀ rest, f (d :: rest) = (⟨long, front ++ [d], none⟩, rest))
    (hshort : cs.head? ≠ some d → f cs = (⟨short, front, none⟩, cs)) :
    s.Ends ((s.past front cs).either d long short) (f cs) := by
  unfold Ends either
  by_cases hcs : cs.head? = some d
  · obtain ⟨rest, rfl⟩ := List.head?_eq_some_iff.mp hcs
    rw [next?_self reads_past hd, hlong rest, past_past]
    rfl
  · rw [next?_other reads_past hcs, hshort hcs]
    rfl

theorem ends_single {kind : TokenKind} (h : s.Reads (c :: cs)) (hc : c ≠ '\n')
    (hfirst : Lexeme.first c cs = (⟨kind, [c], none⟩, cs)) :
    s.Ends (kind, s.advance) (Lexeme.first c cs) := by
  unfold Ends
  rw [advance_eq h hc, hfirst]
  rfl

theorem ends_number (h : s.Reads (c :: cs)) (hc : c.isDigit) :
    s.Ends (s.advance.number) (Lexeme.number (c :: cs)) := by
  have hne : c ≠ '\n' := by
    rintro rfl
    cases hc
  have hdigits : s.advance.advanceWhile Char.isDigit =
      s.past (c :: cs.takeWhile Char.isDigit) (cs.dropWhile Char.isDigit) := by
    rw [advance_eq h hne, advanceWhile_eq (by decide) reads_past, past_past]
    rfl
  unfold Ends number Lexeme.number
  rw [List.takeWhile_cons_of_pos hc, List.dropWhile_cons_of_pos hc, hdigits]
  dsimp only
  rw [peek_eq reads_past, peekSecond_eq reads_past]
  generalize cs.dropWhile Char.isDigit = rest
  by_cases hpoint : rest.head? = some '.' ∧ rest.tail.head?.any Char.isDigit
  · obtain ⟨hhead, hsecond⟩ := hpoint
    obtain ⟨tail, rfl⟩ := List.head?_eq_some_iff.mp hhead
    obtain ⟨d, hd, hdigit⟩ := (Option.any_eq_true _ _).mp hsecond
    obtain ⟨more, rfl⟩ := List.head?_eq_some_iff.mp hd
    have hstep : (s.past (c :: cs.takeWhile Char.isDigit) ('.' :: d :: more)).advance =
        s.past (c :: cs.takeWhile Char.isDigit ++ ['.']) (d :: more) := by
      rw [advance_eq reads_past (by decide), past_past]
    rw [if_pos ⟨rfl, hsecond⟩]
    simp only [hdigit, if_true]
    rw [hstep, advanceWhile_eq (by decide) reads_past, past_past, List.append_assoc]
    rfl
  · rw [if_neg hpoint]
    split
    · next d more =>
      have hd : ¬ d.isDigit := fun hd => hpoint ⟨rfl, hd⟩
      rw [if_neg hd]
      rfl
    · rfl

/-! The text of a lexeme. -/

theorem charIndices_append (n : Nat) (a b : List Char) :
    charIndices n (a ++ b) = charIndices n a ++ charIndices (n + bytes a) b := by
  induction a generalizing n with
  | nil => rfl
  | cons c a ih =>
    rw [List.cons_append, charIndices, charIndices, ih, bytes_cons, Nat.add_assoc]
    rfl

theorem charIndices_bounds {n : Nat} {x : Nat × Char} (hx : x ∈ charIndices n cs) :
    n ≤ x.1 ∧ x.1 < n + bytes cs := by
  induction cs generalizing n with
  | nil => cases hx
  | cons c cs ih =>
    have hc := c.utf8Size_pos
    rw [bytes_cons]
    rcases List.mem_cons.mp hx with rfl | hx
    · dsimp only
      omega
    · have := ih hx
      omega

theorem slice_eq {source : String} {before text after : List Char}
    (h : source.toList = before ++ (text ++ after)) :
    slice source (bytes before) (bytes before + bytes text) = .ofList text := by
  have hfront : (charIndices 0 before).filter (fun x =>
      decide (bytes before ≤ x.1) && decide (x.1 < bytes before + bytes text)) = [] := by
    rw [List.filter_eq_nil_iff]
    intro x hx
    have := charIndices_bounds hx
    simp
    omega
  have hinside : (charIndices (bytes before) text).filter (fun x =>
      decide (bytes before ≤ x.1) && decide (x.1 < bytes before + bytes text)) =
        charIndices (bytes before) text := by
    rw [List.filter_eq_self]
    intro x hx
    have := charIndices_bounds hx
    simp
    omega
  have hbehind : (charIndices (bytes before + bytes text) after).filter (fun x =>
      decide (bytes before ≤ x.1) && decide (x.1 < bytes before + bytes text)) = [] := by
    rw [List.filter_eq_nil_iff]
    intro x hx
    have := charIndices_bounds hx
    simp
    omega
  unfold slice
  rw [h, charIndices_append, charIndices_append, Nat.zero_add, List.filter_append,
    List.filter_append, hfront, hinside, hbehind, List.nil_append, List.append_nil,
    map_snd_charIndices]

structure Begins (s : Scanner) (before cs : List Char) : Prop where
  source : s.source.toList = before ++ cs
  reads : s.Reads cs
  cursor : s.cursor = bytes before
  start : s.start = s.cursor
  startLine : s.startLine = s.line

variable {before : List Char}

theorem text_past (h : s.Begins before (text ++ rest)) :
    (s.past text rest).text = .ofList text := by
  unfold Scanner.text
  show slice s.source s.start (s.cursor + bytes text) = _
  rw [h.start, h.cursor]
  exact slice_eq h.source

theorem ends_word (h : s.Begins before (c :: cs)) (hc : Lexeme.startsWord c) :
    s.Ends (s.advance.word) (Lexeme.word (c :: cs)) := by
  have hcont := Lexeme.continuesWord_of_startsWord hc
  have hne : c ≠ '\n' := by
    rintro rfl
    cases hc
  have hpast : s.advance.advanceWhile Lexeme.continuesWord =
      s.past ((c :: cs).takeWhile Lexeme.continuesWord)
        ((c :: cs).dropWhile Lexeme.continuesWord) := by
    rw [advance_eq h.reads hne, advanceWhile_eq (by decide) reads_past, past_past,
      List.takeWhile_cons_of_pos hcont, List.dropWhile_cons_of_pos hcont]
    rfl
  unfold Ends word Lexeme.word
  rw [hpast]
  dsimp only
  rw [text_past (by rw [List.takeWhile_append_dropWhile]; exact h)]
  rfl

section

variable {r : TokenKind × Scanner}

/-- A colon, two of them, or two and a dollar sign. -/
theorem ends_colon (h : s.Reads (':' :: cs))
    (hself : ∀ t, s.advance.next? ':' = some t →
      r = t.either '$' (.access .dynamicScope) (.access .scope))
    (hother : s.advance.next? ':' = none → r = (.colon, s.advance)) :
    s.Ends r (Lexeme.first ':' cs) := by
  by_cases hcs : cs.head? = some ':'
  · obtain ⟨rest, rfl⟩ := List.head?_eq_some_iff.mp hcs
    rw [advance_eq h (by decide)] at hself
    rw [hself _ (next?_self reads_past (by decide)), past_past]
    refine ends_either (d := '$') (f := fun rest => Lexeme.first ':' (':' :: rest)) (by decide)
      (fun _ => rfl) ?_
    intro hrest
    cases rest with
    | nil => rfl
    | cons d rest =>
      have hd : d ≠ '$' := by simpa using hrest
      simp [Lexeme.first, Lexeme.mark?, hd]
  · have hnext : s.advance.next? ':' = none := by
      rw [advance_eq h (by decide), next?_other reads_past hcs]
    rw [hother hnext]
    refine ends_single h (by decide) ?_
    cases cs with
    | nil => rfl
    | cons d cs =>
      have hd : d ≠ ':' := by simpa using hcs
      simp [Lexeme.first, Lexeme.mark?, hd]

/-- A mark that may be doubled, or followed by an equals sign. -/
theorem ends_twice {long middle short : TokenKind} (h : s.Reads (c :: cs)) (hc : c ≠ '\n')
    (hself : ∀ t, s.advance.next? c = some t → r = (long, t))
    (hother : s.advance.next? c = none → r = s.advance.either '=' middle short)
    (hlong : ∀ rest, Lexeme.first c (c :: rest) = (⟨long, [c, c], none⟩, rest))
    (hmiddle : ∀ rest, Lexeme.first c ('=' :: rest) = (⟨middle, [c, '='], none⟩, rest))
    (hshort : cs.head? ≠ some c → cs.head? ≠ some '=' →
      Lexeme.first c cs = (⟨short, [c], none⟩, cs)) : s.Ends r (Lexeme.first c cs) := by
  rw [advance_eq h hc] at hself hother
  by_cases hcs : cs.head? = some c
  · obtain ⟨rest, rfl⟩ := List.head?_eq_some_iff.mp hcs
    rw [hself _ (next?_self reads_past hc), hlong, past_past]
    rfl
  · rw [hother (next?_other reads_past hcs)]
    exact ends_either (by decide) hmiddle (hshort hcs)

/-- A slash, or a comment of one of the two forms. -/
theorem ends_slash (h : s.Reads ('/' :: cs))
    (hline : ∀ t, s.advance.next? '/' = some t → r = (.comment, t.advanceWhile (· != '\n')))
    (hblock : ∀ t, s.advance.next? '/' = none → s.advance.next? '*' = some t →
      r = (.comment, t.blockComment))
    (hother : s.advance.next? '/' = none → s.advance.next? '*' = none →
      r = (.binary .div, s.advance)) : s.Ends r (Lexeme.first '/' cs) := by
  rw [advance_eq h (by decide)] at hline hblock hother
  by_cases hslash : cs.head? = some '/'
  · obtain ⟨rest, rfl⟩ := List.head?_eq_some_iff.mp hslash
    rw [hline _ (next?_self reads_past (by decide)), past_past]
    unfold Ends
    rw [advanceWhile_eq (by decide) reads_past, past_past]
    rfl
  have hslash' : (s.past ['/'] cs).next? '/' = none := next?_other reads_past hslash
  by_cases hstar : cs.head? = some '*'
  · obtain ⟨rest, rfl⟩ := List.head?_eq_some_iff.mp hstar
    rw [hblock _ hslash' (next?_self reads_past (by decide)), past_past]
    obtain ⟨text, htext, hs⟩ :=
      blockComment_eq (s := s.past (['/'] ++ ['*']) rest) reads_past ['*', '/']
    unfold Ends
    show _ = ((Lexeme.comment ['*', '/'] rest).1.kind,
      (s.past (Lexeme.comment ['*', '/'] rest).1.text
        (Lexeme.comment ['*', '/'] rest).2).settle (Lexeme.comment ['*', '/'] rest).1.fault)
    rw [Lexeme.comment_kind, hs, past_past, htext]
    rfl
  · rw [hother hslash' (next?_other reads_past hstar)]
    have hfirst : Lexeme.first '/' cs = (⟨.binary .div, ['/'], none⟩, cs) := by
      cases cs with
      | nil => rfl
      | cons d cs =>
        have hd : d ≠ '/' := by simpa using hslash
        have hd' : d ≠ '*' := by simpa using hstar
        simp [Lexeme.first, Lexeme.mark?, hd, hd']
    rw [hfirst]
    rfl

end

theorem lexeme_ends (h : s.Begins before (c :: cs)) :
    s.Ends (lexeme c s.advance) (Lexeme.first c cs) := by
  have hr := h.reads
  unfold lexeme
  split
  all_goals try exact ends_single hr (by decide) rfl
  case h_14 =>
    refine ends_colon hr (fun t ht => ?_) fun ht => ?_
    · rw [ht]
    · rw [ht]
  case h_21 | h_22 =>
    refine ends_twice hr (by decide) (fun t ht => by rw [ht]) (fun ht => by rw [ht])
      (fun _ => rfl) (fun _ => rfl) ?_
    intro htwice hequal
    cases cs with
    | nil => rfl
    | cons d cs =>
      simp only [List.head?_cons, ne_eq, Option.some.injEq] at htwice hequal
      simp [Lexeme.first, Lexeme.mark?, htwice, hequal]
  case h_23 =>
    refine ends_slash hr (fun t ht => ?_) (fun t ht hstar => ?_) fun ht hstar => ?_
    · rw [ht]
    · rw [ht, hstar]
    · rw [ht, hstar]
  case h_24 =>
    obtain ⟨text, htext, hs⟩ := string_eq (s := s.past ['"'] cs) reads_past ['"']
    rw [advance_eq hr (by decide)]
    show _ = ((Lexeme.string ['"'] cs).1.kind, (s.past (Lexeme.string ['"'] cs).1.text
      (Lexeme.string ['"'] cs).2).settle (Lexeme.string ['"'] cs).1.fault)
    rw [Lexeme.string_kind, hs, past_past, htext]
    rfl
  case h_25 =>
    have hm : Lexeme.startsMark c = false := by simp_all [Lexeme.startsMark]
    rw [Lexeme.first_unmarked hm ‹_›]
    by_cases hblank : Text.isBlank c
    · rw [if_pos hblank, if_pos hblank, advance_line_eq hr, blanks_eq reads_past, past_past]
      rfl
    rw [if_neg hblank, if_neg hblank]
    by_cases hdigit : c.isDigit
    · rw [if_pos hdigit, if_pos hdigit]
      exact ends_number hr hdigit
    rw [if_neg hdigit, if_neg hdigit]
    by_cases hword : Lexeme.startsWord c
    · rw [if_pos hword, if_pos hword]
      exact ends_word h hword
    have hne : c ≠ '\n' := by
      rintro rfl
      exact hblank (by decide)
    rw [if_neg hword, if_neg hword, advance_eq hr hne]
    rfl
  all_goals
    rw [advance_eq hr (by decide)]
    refine ends_either (by decide) (fun _ => rfl) ?_
    intro hcs
    cases cs with
    | nil => rfl
    | cons d cs =>
      simp only [List.head?_cons, ne_eq, Option.some.injEq] at hcs
      simp [Lexeme.first, Lexeme.mark?, hcs]

/-- The scanner behind the lexemes that make up `before`, with `cs` in front. -/
structure Behind (s : Scanner) (before cs : List Char) : Prop where
  source : s.source.toList = before ++ cs
  reads : s.Reads cs
  place : (⟨s.cursor, s.line⟩ : Position) = .behind before

def placing (s : Scanner) (l : Lexeme) : Lexeme × Span := (l, ⟨s.file, s.cursor, s.line, l.size⟩)

def keeps (s : Scanner) (l : Lexeme) : Bool := s.keepTrivia || !l.kind.isTrivia

def taken (s : Scanner) (l : Lexeme) (rest : List Char) : Scanner :=
  { s with
    chars := charIndices (s.cursor + bytes l.text) rest
    start := s.cursor
    startLine := s.line
    cursor := s.cursor + bytes l.text
    line := s.line + l.text.count '\n'
    tokens := if s.keeps l then .ofPlaced (s.placing l) :: s.tokens else s.tokens
    diagnostics := (l.fault.map (·.toDiagnostic (s.placing l).2)).toList ++ s.diagnostics }

theorem token_eq (h : s.Behind before (c :: cs)) :
    s.token s.cursor c = s.taken (Lexeme.first c cs).1 (Lexeme.first c cs).2 := by
  have hbegins : Begins { s with start := s.cursor, startLine := s.line } before (c :: cs) :=
    ⟨h.source, h.reads, congrArg Position.offset h.place, rfl, rfl⟩
  have happend := Lexeme.first_append c cs
  have hends := lexeme_ends hbegins
  unfold Ends at hends
  unfold token
  dsimp only
  rw [hends]
  generalize Lexeme.first c cs = r at happend ⊢
  obtain ⟨⟨kind, text, fault⟩, rest⟩ := r
  rw [← happend] at hbegins
  have htext := text_past hbegins
  have hsize : bytes text = Lexeme.size ⟨kind, text, fault⟩ :=
    (Lexeme.size_eq ⟨kind, text, fault⟩).symm
  generalize hend : past { s with start := s.cursor, startLine := s.line } text rest = e at htext ⊢
  have hspan : e.span = (s.placing ⟨kind, text, fault⟩).2 := by
    rw [← hend]
    show (⟨s.file, s.cursor, s.line, s.cursor + bytes text - s.cursor⟩ : Span) = _
    rw [hsize, Nat.add_sub_cancel_left]
    rfl
  have hsettle : e.settle fault = { e with
      diagnostics := (fault.map (·.toDiagnostic e.span)).toList ++ e.diagnostics } := by
    cases fault <;> rfl
  dsimp only
  rw [hsettle]
  show (if (kind.isTrivia && !e.keepTrivia) = true then _ else
    { e with tokens := ⟨kind, e.text, e.span⟩ :: e.tokens, diagnostics := _ }) = _
  rw [htext, hspan]
  have hkeeps : (kind.isTrivia && !e.keepTrivia) = !s.keeps ⟨kind, text, fault⟩ := by
    rw [← hend]
    show (kind.isTrivia && !s.keepTrivia) = !(s.keepTrivia || !kind.isTrivia)
    rw [Bool.not_or, Bool.not_not, Bool.and_comm]
  unfold taken
  rw [hkeeps]
  by_cases hkeep : s.keeps ⟨kind, text, fault⟩
  · rw [if_neg (by simp [hkeep]), if_pos hkeep, ← hend]
    rfl
  · rw [if_pos (by simp [hkeep]), if_neg hkeep, ← hend]
    rfl

theorem Behind.taken (h : s.Behind before (text ++ rest)) {l : Lexeme} (hl : l.text = text) :
    (s.taken l rest).Behind (before ++ text) rest := by
  subst hl
  refine ⟨?_, rfl, ?_⟩
  · rw [List.append_assoc]
    exact h.source
  · rw [← Position.behind_after, ← h.place, Position.after, Lexeme.size_eq]
    rfl

/-- With turns enough, every lexeme that is left is placed, and kept or not. -/
theorem run_eq {n : Nat} (h : s.Behind before cs) (hn : cs.length ≤ n) :
    let placed := placeOnto s.file [] (.behind before) (Lexeme.all cs)
    let kept := placed.1.filter fun x => s.keeps x.1
    (run n s).tokens = (kept.map Token.ofPlaced).reverse ++ s.tokens ∧
      (run n s).diagnostics = (placed.1.filterMap fun x =>
        x.1.fault.map (·.toDiagnostic x.2)).reverse ++ s.diagnostics ∧
      (run n s).line = placed.2.line := by
  induction n generalizing s before cs with
  | zero =>
    obtain rfl := List.length_eq_zero_iff.mp (Nat.le_zero.mp hn)
    rw [Lexeme.all_nil]
    exact ⟨rfl, rfl, congrArg Position.line h.place⟩
  | succ n ih =>
    cases cs with
    | nil =>
      have hchars : s.chars = [] := h.reads
      rw [Lexeme.all_nil, run, hchars]
      exact ⟨rfl, rfl, congrArg Position.line h.place⟩
    | cons c cs =>
      have hchars : s.chars = (s.cursor, c) :: charIndices (s.cursor + c.utf8Size) cs := h.reads
      have hrun : run (n + 1) s = run n (s.token s.cursor c) := by rw [run, hchars]
      have hlt := Lexeme.length_first c cs
      have htext := Lexeme.first_append c cs
      rw [hrun, token_eq h, Lexeme.all_cons]
      generalize Lexeme.first c cs = r at hlt htext ⊢
      obtain ⟨l, rest⟩ := r
      rw [← htext] at h
      have hrest : rest.length ≤ n := by
        have hlt : rest.length < cs.length + 1 := hlt
        rw [List.length_cons] at hn
        omega
      obtain ⟨htokens, hdiagnostics, hline⟩ := ih (h.taken rfl) hrest
      have hplacing : (l, (⟨s.file, (Position.behind before).offset, (Position.behind before).line,
          l.size⟩ : Span)) = s.placing l := by
        rw [← h.place]
        rfl
      rw [placeOnto_cons, Position.behind_after, hplacing]
      refine ⟨htokens.trans ?_, hdiagnostics.trans ?_, hline⟩
      · show _ ++ (if s.keeps l then _ else _) = _
        rw [List.filter_cons]
        show _ = (List.map _ (if s.keeps l then _ else _)).reverse ++ _
        by_cases hkeep : s.keeps l
        · rw [if_pos hkeep, if_pos hkeep, List.map_cons, List.reverse_cons, List.append_assoc]
          rfl
        · rw [if_neg hkeep, if_neg hkeep]
          rfl
      · show _ ++ ((l.fault.map (·.toDiagnostic (s.placing l).2)).toList ++ _) = _
        rw [List.filterMap_cons]
        cases hfault : l.fault <;> simp [placing, hfault] <;> rfl

/-- The scanner finds the lexemes of the text and counts their places as these are laid. -/
theorem scan_eq (source : String) (file : Option String) (keepTrivia : Bool) :
    scan source file keepTrivia = Lss.scan source file keepTrivia := by
  have hbehind : Behind { source, file, keepTrivia, chars := charIndices 0 source.toList } []
      source.toList := ⟨rfl, rfl, rfl⟩
  have hturns : source.toList.length ≤ source.length := Nat.le_of_eq String.length_toList
  obtain ⟨htokens, hdiagnostics, hline⟩ := run_eq hbehind hturns
  have hlast := (placeOnto_tiles file [] (Lexeme.all source.toList)).1
  rw [(Lexeme.all_spec source.toList).1, List.nil_append] at hlast
  have hsize : (Position.behind source.toList).offset = source.utf8ByteSize := by
    rw [Position.behind, String.ofList_toList]
  rw [Lss.scan_eq, hsize]
  refine Prod.ext ?_ ?_
  · show (_ :: _).reverse = _
    rw [htokens, hline.trans (congrArg Position.line hlast), List.reverse_cons, List.append_nil,
      List.reverse_reverse]
    rfl
  · show List.reverse _ = _
    rw [hdiagnostics, List.append_nil, List.reverse_reverse]
    rfl

end Scanner

/-- A scan tiles its text, and without blanks and comments it is the same scan less these. -/
theorem scan_tiles (source : String) (file : Option String) :
    Tokenized source file (Scanner.scan source file true).1 ∧
      Scanner.scan source file false =
        ((Scanner.scan source file true).1.filter (!·.kind.isTrivia),
          (Scanner.scan source file true).2) ∧
      ∀ keepTrivia, Scanner.scan source file keepTrivia = scan source file keepTrivia := by
  obtain ⟨htokens, hfilter⟩ := scan_tokenized source file
  rw [Scanner.scan_eq, Scanner.scan_eq]
  exact ⟨htokens, hfilter, Scanner.scan_eq source file⟩

end Lss
