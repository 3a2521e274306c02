import Lss.Proofs.Formed

/-!
# Texts of trees: expressions

The text of a formed expression is made of its tokens, and of nothing else but blanks: no two
tokens that stand side by side run into one another.
-/
namespace Lss

def Prints (cs : List Char) (bs : List Token) : Prop :=
  ∀ next ts, Lexed next ts → Lexed (cs ++ next) (bs ++ ts)

/-- The same for a text that must not run into a word or a number behind it. -/
def PrintsApart (cs : List Char) (bs : List Token) : Prop :=
  ∀ next ts, Apart next → Lexed next ts → Lexed (cs ++ next) (bs ++ ts)

def Calm (next : List Char) : Prop := ∀ d ∈ next.head?, Lexeme.lengthensMark d = false

namespace Apart

variable {c : Char} {cs : List Char}

theorem of_char (hc : Lexeme.continuesWord c = false) (hp : c ≠ '.') : Apart (c :: cs) := by
  refine ⟨?_, ?_⟩
  · rintro _ ⟨⟩
    exact hc
  · intro d ds h
    exact absurd (List.cons.inj h).1 hp

theorem of_blank (hc : Text.isBlank c) : Apart (c :: cs) := by
  refine of_char ?_ ?_
  · cases hw : Lexeme.continuesWord c with
    | false => rfl
    | true =>
      rw [Lexeme.isBlank_eq_false hw] at hc
      cases hc
  · rintro rfl
    exact absurd hc (by decide)

theorem point (hc : c.isDigit = false) : Apart ('.' :: c :: cs) := by
  refine ⟨?_, ?_⟩
  · rintro _ ⟨⟩
    rfl
  · intro d ds h
    cases h
    exact hc

end Apart

namespace Prints

variable {cs ds : List Char} {bs as : List Token}

theorem nil : Prints [] [] := fun _ _ h => h

theorem append (h : Prints cs bs) (h' : Prints ds as) : Prints (cs ++ ds) (bs ++ as) := by
  intro next ts hn
  rw [List.append_assoc, List.append_assoc]
  exact h _ _ (h' _ _ hn)

theorem blanks (h : ∀ c ∈ cs, Text.isBlank c) : Prints cs [] := fun _ _ hn => hn.blanks h

theorem space : Prints [' '] [] := blanks (List.all_eq_true.mp (by decide))

theorem newline : Prints ['\n'] [] := blanks (List.all_eq_true.mp (by decide))

theorem apart (h : Prints cs bs) : PrintsApart cs bs := fun next ts _ hn => h next ts hn

/-- A bracket, a comma or a semicolon. -/
theorem bracket (kind : TokenKind) (text : String) (hb : kind.isBracket)
    (ht : kind.lexeme? = some text) : Prints text.toList [.of kind] := by
  intro next ts hn
  have hm : kind.isMark := by cases kind <;> first | rfl | cases hb
  exact hn.mark hm ht fun h => by rw [hb] at h; cases h

theorem leftParen : Prints ['('] [.of .leftParen] := bracket .leftParen "(" rfl rfl

theorem rightParen : Prints [')'] [.of .rightParen] := bracket .rightParen ")" rfl rfl

theorem leftBracket : Prints ['['] [.of .leftBracket] := bracket .leftBracket "[" rfl rfl

theorem rightBracket : Prints [']'] [.of .rightBracket] := bracket .rightBracket "]" rfl rfl

theorem leftBrace : Prints ['\x7b'] [.of .leftBrace] := bracket .leftBrace "\x7b" rfl rfl

theorem rightBrace : Prints ['\x7d'] [.of .rightBrace] := bracket .rightBrace "\x7d" rfl rfl

theorem comma : Prints [','] [.of .comma] := bracket .comma "," rfl rfl

theorem semicolon : Prints [';'] [.of .semicolon] := bracket .semicolon ";" rfl rfl

end Prints

namespace PrintsApart

variable {cs ds : List Char} {bs as : List Token}

/-- A text in front of one that keeps apart from it. -/
theorem append (h : PrintsApart cs bs) (hd : ∀ next, Apart (ds ++ next)) (h' : Prints ds as) :
    Prints (cs ++ ds) (bs ++ as) := by
  intro next ts hn
  rw [List.append_assoc, List.append_assoc]
  exact h _ _ (hd next) (h' _ _ hn)

/-- The same where the second text is of that sort too. -/
theorem append_apart (h : PrintsApart cs bs) (hd : ∀ next, Apart next → Apart (ds ++ next))
    (h' : PrintsApart ds as) : PrintsApart (cs ++ ds) (bs ++ as) := by
  intro next ts ha hn
  rw [List.append_assoc, List.append_assoc]
  exact h _ _ (hd next ha) (h' _ _ ha hn)

theorem token {t : Token} (ht : t.Spelled) (hk : t.kind.isMark = false) :
    PrintsApart t.text.toList [t.bare] := fun _ _ ha hn => hn.token ht hk ha

end PrintsApart

/-- A text in front of one that goes on where it ends. -/
theorem Prints.append_apart {cs ds : List Char} {bs as : List Token} (h : Prints cs bs)
    (h' : PrintsApart ds as) : PrintsApart (cs ++ ds) (bs ++ as) := by
  intro next ts ha hn
  rw [List.append_assoc, List.append_assoc]
  exact h _ _ (h' _ _ ha hn)

/-! Single tokens. -/

namespace Token

variable {t : Token}

theorem Spelled.lexeme? (ht : t.Spelled) (hm : t.kind.isMark) : t.kind.lexeme? = some t.text := by
  unfold Spelled at ht
  generalize t.kind = kind at ht hm
  generalize hcs : t.text.toList = cs at ht
  cases ht with
  | word =>
    rcases Spells.ofWord_cases _ with ⟨k, h⟩ | ⟨p, h⟩ | h <;> rw [h] at hm <;> cases hm
  | integer | float | string => cases hm
  | mark _ hl => rw [hl, String.toList_inj.mp hcs]

/-- A mark in front of what cannot lengthen it. -/
theorem Spelled.prints_mark (ht : t.Spelled) (hm : t.kind.isMark) {ds : List Char}
    {as : List Token} (hd : ∀ next, Calm (ds ++ next)) (h : PrintsApart ds as) :
    PrintsApart (t.text.toList ++ ds) (t.bare :: as) := by
  intro next ts ha hn
  have hl := ht.lexeme? hm
  have hbare : t.bare = .of t.kind := by
    simp [bare, of, hl]
  rw [List.append_assoc, List.cons_append, hbare]
  exact (h next ts ha hn).mark hm hl fun _ => hd next

end Token

def isWord : List Char → Bool
  | [] => false
  | c :: cs => Lexeme.startsWord c && cs.all Lexeme.continuesWord

theorem Spells.of_isWord {w : String} (h : isWord w.toList) : Spells (.ofWord w) w.toList := by
  rw [← String.ofList_toList (s := w)] at h ⊢
  revert h
  generalize w.toList = cs
  rw [String.toList_ofList]
  intro h
  cases cs with
  | nil => cases h
  | cons c cs =>
    simp only [isWord, Bool.and_eq_true, List.all_eq_true] at h
    exact .word h.1 h.2

theorem IsName.of_isWord {w : String} (h : isWord w.toList)
    (hi : TokenKind.ofWord w = .identifier) : IsName w := by
  have := Spells.of_isWord h
  rwa [hi] at this

theorem Keyword.spelled (k : Keyword) : (Token.of (.keyword k)).Spelled := by
  have hk : TokenKind.ofWord k.text = .keyword k ∧ isWord k.text.toList := by
    cases k <;> decide
  have := Spells.of_isWord hk.2
  rw [hk.1] at this
  exact this

theorem Property.spelled (p : Property) : (Token.of (.property p)).Spelled := by
  have hp : TokenKind.ofWord p.text = .property p ∧ isWord p.text.toList := by
    cases p <;> decide
  have := Spells.of_isWord hp.2
  rw [hp.1] at this
  exact this

/-- A keyword is a token like any other. -/
theorem Keyword.prints (k : Keyword) : PrintsApart k.text.toList [.of (.keyword k)] :=
  .token (t := .of (.keyword k)) k.spelled rfl

/-! Lists between commas. -/

def moreCommas (css : List (List Char)) : List Char := css.flatMap fun cs => ',' :: ' ' :: cs

def commas : List (List Char) → List Char
  | [] => []
  | cs :: css => cs ++ moreCommas css

theorem moreCommas_apart {css : List (List Char)} {next : List Char} (h : Apart next) :
    Apart (moreCommas css ++ next) := by
  cases css with
  | nil => exact h
  | cons cs css => exact .of_char (by decide) (by decide)

section

variable {α : Type} {text : α → List Char} {tokens : α → List Token} {xs : List α}

theorem prints_moreCommas (h : ∀ x ∈ xs, PrintsApart (text x) (tokens x)) :
    PrintsApart (moreCommas (xs.map text)) (xs.flatMap fun x => .of .comma :: tokens x) := by
  induction xs with
  | nil => exact Prints.nil.apart
  | cons x xs ih =>
    have hcomma : Prints [',', ' '] [.of .comma] := Prints.comma.append .space
    have hxs := ih fun x hx => h x (List.mem_cons_of_mem _ hx)
    have hx := (h x List.mem_cons_self).append_apart (fun _ => moreCommas_apart) hxs
    exact hcomma.append_apart hx

theorem prints_commas (tokens : α → List Token) {bs : List Token}
    (h : ∀ x ∈ xs, PrintsApart (text x) (tokens x))
    (hbs : bs = match xs with
      | [] => []
      | x :: xs => tokens x ++ xs.flatMap fun x => .of .comma :: tokens x) :
    PrintsApart (commas (xs.map text)) bs := by
  subst hbs
  cases xs with
  | nil => exact Prints.nil.apart
  | cons x xs =>
    have hxs := prints_moreCommas fun x hx => h x (List.mem_cons_of_mem _ hx)
    exact (h x List.mem_cons_self).append_apart (fun _ => moreCommas_apart) hxs

end

/-! Expressions. -/

namespace Expr

variable {A B : Prop} {e : Expr}

theorem toList_moreText (out : String) (es : List Expr) :
    (moreText out es).toList = out.toList ++ moreCommas (es.map (·.text.toList)) := by
  induction es generalizing out with
  | nil => simp [show moreText out [] = out from rfl, moreCommas]
  | cons e es ih =>
    change (moreText (out ++ ", " ++ e.text) es).toList = _
    simp [ih, moreCommas]

theorem moreTokens_eq (es : List Expr) :
    moreTokens es = es.flatMap fun e => .of .comma :: e.tokens := by
  induction es with
  | nil => rfl
  | cons e es ih => rw [moreTokens, ih, List.flatMap_cons, List.cons_append]

theorem prints_list {es : List Expr} (h : ∀ e ∈ es, PrintsApart e.text.toList e.tokens) :
    PrintsApart (commas (es.map (·.text.toList))) (listTokens es) := by
  refine prints_commas Expr.tokens h ?_
  cases es with
  | nil => rfl
  | cons e es => rw [listTokens, moreTokens_eq]

theorem toList_grouping (e : Expr) :
    (Expr.grouping e).text.toList = ['('] ++ (e.text.toList ++ [')']) := by
  change ("(" ++ e.text ++ ")").toList = _
  simp

theorem toList_unary (op : Token) (e : Expr) :
    (Expr.unary op e true).text.toList = op.text.toList ++ e.text.toList :=
  String.toList_append

theorem toList_access {op : Token} (hop : op.kind.isAccess) (l r : Expr) :
    (Expr.binary l op r).text.toList = l.text.toList ++ (op.text.toList ++ r.text.toList) := by
  change (if op.kind.isAccess then l.text ++ op.text ++ r.text else _).toList = _
  rw [if_pos hop]
  simp

theorem toList_binary {op : Token} {o : BinaryOp} (hop : op.kind = .binary o) (l r : Expr) :
    (Expr.binary l op r).text.toList
      = l.text.toList ++ ([' '] ++ (op.text.toList ++ ([' '] ++ r.text.toList))) := by
  change (if op.kind.isAccess then _ else l.text ++ " " ++ op.text ++ " " ++ r.text).toList = _
  rw [if_neg (by rw [hop]; exact Bool.false_ne_true)]
  simp

theorem toList_index (a i : Expr) (s : Span) : (Expr.index a i s).text.toList
    = a.text.toList ++ (['['] ++ (i.text.toList ++ [']'])) := by
  change (a.text ++ "[" ++ i.text ++ "]").toList = _
  simp

theorem toList_array (es : List Expr) (s : Span) : (Expr.array es s).text.toList
    = ['['] ++ (commas (es.map (·.text.toList)) ++ [']']) := by
  cases es with
  | nil =>
    change "[]".toList = _
    simp [commas]
  | cons e es =>
    change ("[" ++ moreText e.text es ++ "]").toList = _
    simp [commas, toList_moreText]

theorem toList_call (f : Expr) (es : List Expr) (s : Span) : (Expr.call f es s).text.toList
    = f.text.toList ++ (['('] ++ (commas (es.map (·.text.toList)) ++ [')'])) := by
  cases es with
  | nil =>
    change (f.text ++ "()").toList = _
    simp [commas]
  | cons e es =>
    change (f.text ++ "(" ++ moreText e.text es ++ ")").toList = _
    simp [commas, toList_moreText]

theorem toList_new (t : Token) (s : Span) : (Expr.construct t none s).text.toList
    = Keyword.new.text.toList ++ ([' '] ++ t.text.toList) := by
  change ("new " ++ t.text).toList = _
  simp [Keyword.text]

theorem toList_construct (t : Token) (es : List Expr) (s : Span) :
    (Expr.construct t (some es) s).text.toList = Keyword.new.text.toList ++ ([' '] ++
      (t.text.toList ++ (['('] ++ (commas (es.map (·.text.toList)) ++ [')'])))) := by
  cases es with
  | nil =>
    change ("new " ++ t.text ++ "()").toList = _
    simp [commas, Keyword.text]
  | cons e es =>
    change ("new " ++ t.text ++ "(" ++ moreText e.text es ++ ")").toList = _
    simp [commas, toList_moreText, Keyword.text]

theorem isMark_of_isPrefix {k : TokenKind} (h : k.isPrefix) : k.isMark := by
  rcases TokenKind.isPrefix_iff.mp h with rfl | rfl | rfl <;> rfl

theorem first_of_isPrefix {op : Token} (hop : op.kind.isPrefix) (hs : op.Spelled) :
    ∃ c, op.text.toList = [c] ∧ Lexeme.lengthensMark c = false := by
  have hl := hs.lexeme? (isMark_of_isPrefix hop)
  rcases TokenKind.isPrefix_iff.mp hop with h | h | h <;> rw [h] at hl <;>
    rw [← Option.some.inj hl]
  · exact ⟨'-', rfl, by decide⟩
  · exact ⟨'!', rfl, by decide⟩
  · exact ⟨'~', rfl, by decide⟩

/-- What an expression starts with lengthens no mark. -/
theorem Formed.first (h : e.Formed IsName A B) :
    ∃ c cs, e.text.toList = c :: cs ∧ Lexeme.lengthensMark c = false := by
  have behind {l : Expr} {text : List Char} (cs : List Char)
      (h : ∃ c cs, l.text.toList = c :: cs ∧ Lexeme.lengthensMark c = false)
      (ht : text = l.text.toList ++ cs) :
      ∃ c cs, text = c :: cs ∧ Lexeme.lengthensMark c = false := by
    obtain ⟨c, cs', hc, hl⟩ := h
    exact ⟨c, cs' ++ cs, by rw [ht, hc]; rfl, hl⟩
  induction h with
  | literal hl hs => exact hs.first (Parser.isMark_of_isLiteral hl)
  | signed hk hcs hs => exact ⟨'-', _, hcs, rfl⟩
  | name hk hn => exact (Token.IsName.spelled ⟨hk, hn⟩).first (by rw [hk]; rfl)
  | this hk hs => exact hs.first (by rw [hk]; rfl)
  | grouping => exact ⟨'(', _, toList_grouping _, rfl⟩
  | @unary op e hop hs _ _ _ _ =>
    obtain ⟨c, hc, hl⟩ := first_of_isPrefix hop hs
    exact ⟨c, _, by rw [toList_unary, hc]; rfl, hl⟩
  | binary hop _ _ _ _ _ ihl => exact behind _ ihl (toList_binary hop _ _)
  | member hop _ _ _ _ _ ihl => exact behind _ ihl (toList_access (by rw [hop]; rfl) _ _)
  | scope hop _ _ _ _ _ ihl => exact behind _ ihl (toList_access (by rw [hop]; rfl) _ _)
  | dynamic hop _ _ _ _ _ ihl =>
    exact behind _ ihl (toList_access (by rcases hop with h | h <;> rw [h] <;> rfl) _ _)
  | index _ _ _ iha _ => exact behind _ iha (toList_index _ _ _)
  | array => exact ⟨'[', _, toList_array _ _, rfl⟩
  | call _ _ _ _ _ ihf => exact behind _ ihf (toList_call _ _ _)
  | new => exact ⟨'n', _, toList_new _ _, rfl⟩
  | construct => exact ⟨'n', _, toList_construct _ _ _, rfl⟩

theorem Formed.calm (h : e.Formed IsName A B) (next : List Char) :
    Calm (e.text.toList ++ next) := by
  obtain ⟨c, cs, hc, hl⟩ := h.first
  rw [hc]
  rintro _ ⟨⟩
  exact hl

theorem bracket_apart {c : Char} (hc : c ∈ [')', ']', '(', '[', ',', ';']) (cs : List Char) :
    Apart (c :: cs) := by
  have hall : [')', ']', '(', '[', ',', ';'].all fun c => !Lexeme.continuesWord c && c != '.' := by
    decide
  have hc := List.all_eq_true.mp hall c hc
  simp only [Bool.and_eq_true, Bool.not_eq_true', bne_iff_ne] at hc
  exact .of_char hc.1 hc.2

/-- An access operator behind a receiver. -/
theorem prints_access {l r : Expr} {op : Token} (hop : op.kind.isAccess) (hs : op.Spelled)
    (ha : ∀ next, Apart (op.text.toList ++ (r.text.toList ++ next)))
    (hc : ∀ next, Calm (r.text.toList ++ next)) (hl : PrintsApart l.text.toList l.tokens)
    (hr : PrintsApart r.text.toList r.tokens) :
    PrintsApart (Expr.binary l op r).text.toList (Expr.binary l op r).tokens := by
  have hm : op.kind.isMark := by
    revert hop
    cases op.kind <;> first | exact fun _ => rfl | (intro h; cases h)
  rw [toList_access hop]
  refine hl.append_apart (fun next _ => ?_) (hs.prints_mark hm hc hr)
  rw [List.append_assoc]
  exact ha next

theorem text_of_kind {t : Token} {kind : TokenKind} {text : String} (hk : t.kind = kind)
    (hs : t.Spelled) (hm : kind.isMark) (hl : kind.lexeme? = some text) : t.text = text := by
  subst hk
  exact Option.some.inj ((hs.lexeme? hm).symm.trans hl)

/-- A name behind a receiver. -/
theorem prints_name {l : Expr} {op t : Token}
    (hop : op.kind = .access .member ∨ op.kind = .access .scope) (hs : op.Spelled)
    (ht : t.kind = .identifier ∨ t.kind.isProperty) (hts : t.Spelled)
    (hl : PrintsApart l.text.toList l.tokens) :
    PrintsApart (Expr.binary l op (.variable t)).text.toList
      (Expr.binary l op (.variable t)).tokens := by
  obtain ⟨c, cs, hc, hw⟩ := hts.startsWord ht
  refine prints_access (by rcases hop with h | h <;> rw [h] <;> rfl) hs (fun next => ?_)
    (fun next => ?_) hl (.token hts (Spells.isMark_of_name ht))
  · rcases hop with h | h
    · rw [text_of_kind h hs rfl rfl, show (Expr.variable t).text = t.text from rfl, hc]
      exact .point (Lexeme.isDigit_eq_false hw)
    · rw [text_of_kind h hs rfl rfl]
      exact .of_char (by decide) (by decide)
  · rw [show (Expr.variable t).text = t.text from rfl, hc]
    rintro _ ⟨⟩
    exact Lexeme.lengthensMark_eq_false (Lexeme.continuesWord_of_startsWord hw)

/-- The text of a formed expression is made of its tokens. -/
theorem Formed.prints (h : e.Formed IsName A B) : PrintsApart e.text.toList e.tokens := by
  induction h with
  | literal hl hs =>
    rw [tokens, literalTokens_unsigned (hs.head_ne_minus (Parser.isMark_of_isLiteral hl))]
    exact .token hs (Parser.isMark_of_isLiteral hl)
  | @signed t cs hk hcs hs =>
    have hd : (Token.synthetic t.kind (String.ofList cs)).Spelled := by
      rw [Token.Spelled]
      simpa [Token.synthetic] using hs
    have hm := Parser.isMark_of_isLiteral (Parser.isLiteral_of_number hk)
    have hsub : (Token.of (.binary .sub)).Spelled := .mark rfl rfl
    have hdigits : PrintsApart cs [.synthetic t.kind (String.ofList cs)] := by
      have := PrintsApart.token hd hm
      rwa [show (Token.synthetic t.kind (String.ofList cs)).text.toList = cs from
        String.toList_ofList] at this
    rw [tokens, literalTokens_signed hcs, show (Expr.literal t).text = t.text from rfl, hcs]
    refine hsub.prints_mark rfl (fun next => ?_) hdigits
    obtain ⟨c, ds, rfl, hc⟩ := hs.first hm
    rintro _ ⟨⟩
    exact hc
  | name hk hn => exact .token (Token.IsName.spelled ⟨hk, hn⟩) (by rw [hk]; rfl)
  | this hk hs => exact .token hs (by rw [hk]; rfl)
  | @grouping e _ ih =>
    rw [toList_grouping]
    exact (Prints.leftParen.append
      (ih.append (fun _ => bracket_apart (by decide) _) .rightParen)).apart
  | @unary op e hop hs _ _ he ih =>
    rw [toList_unary]
    exact hs.prints_mark (isMark_of_isPrefix hop) he.calm ih
  | @binary l r op o hop hs _ _ hl hr ihl ihr =>
    rw [toList_binary hop]
    refine ihl.append_apart (fun _ _ => .of_blank (by decide)) (Prints.space.append_apart ?_)
    refine hs.prints_mark (by rw [hop]; rfl) ?_ (Prints.space.append_apart ihr)
    rintro next _ ⟨⟩
    decide
  | member hop hs _ ht hts _ ihl =>
    exact prints_name (.inl hop) hs ht hts ihl
  | scope hop hs _ ht hts _ ihl =>
    exact prints_name (.inr hop) hs (.inl ht) hts ihl
  | @dynamic l r op hop hs _ _ _ hr ihl ihr =>
    refine prints_access (by rcases hop with h | h <;> rw [h] <;> rfl) hs (fun next => ?_) hr.calm
      ihl ihr
    rcases hop with h | h
    · rw [text_of_kind h hs rfl rfl]
      exact .point (by decide)
    · rw [text_of_kind h hs rfl rfl]
      exact .of_char (by decide) (by decide)
  | @index a i s _ _ _ iha ihi =>
    rw [toList_index]
    have hi := ihi.append (fun _ => bracket_apart (by decide) _) .rightBracket
    exact (iha.append (fun _ => bracket_apart (by decide) _) (Prints.leftBracket.append hi)).apart
  | @array es s _ ih =>
    rw [toList_array]
    have hes := (prints_list ih).append (fun _ => bracket_apart (by decide) _) .rightBracket
    exact (Prints.leftBracket.append hes).apart
  | @call f es s _ _ _ _ _ ihf ihes =>
    rw [toList_call]
    have hes := (prints_list ihes).append (fun _ => bracket_apart (by decide) _) .rightParen
    exact (ihf.append (fun _ => bracket_apart (by decide) _) (Prints.leftParen.append hes)).apart
  | @new t s hk hs =>
    rw [toList_new]
    exact (Keyword.new).prints.append_apart (fun _ _ => .of_blank (by decide))
      (Prints.space.append_apart (.token hs (by rw [hk]; rfl)))
  | @construct t es s hk hs _ _ ih =>
    rw [toList_construct]
    have hes := (prints_list ih).append (fun _ => bracket_apart (by decide) _) .rightParen
    have ht : PrintsApart t.text.toList [t.bare] := .token hs (by rw [hk]; rfl)
    exact ((Keyword.new).prints.append (fun _ => .of_blank (by decide)) (Prints.space.append
      (ht.append (fun _ => bracket_apart (by decide) _) (Prints.leftParen.append hes)))).apart

end Expr

end Lss
