import Lss.Tree.Parser.Expr
import Lss.Proofs.Formed

/-!
# What an expression is read from

The tokens that a parser takes before it gives an expression spell that expression, whatever it
complains of on the way: those of each part stand together, and nothing else stands between them but
the marks of the whole.
-/
namespace Lss

mutual

inductive Expr.ReadFrom : List Token → Expr → Prop
  | literal {t : Token} : Parser.isLiteral t.kind → ReadFrom [t] (.literal t)
  | variable {t : Token} : ReadFrom [t] (.variable t)
  | grouping {ts : List Token} {left right : Token} {e : Expr} : left.kind = .leftParen →
      right.kind = .rightParen → ReadFrom ts e → ReadFrom (left :: ts ++ [right]) (.grouping e)
  | unary {ts : List Token} {op : Token} {e : Expr} : op.kind.isPrefix → ReadFrom ts e →
      ReadFrom (op :: ts) (Parser.applyUnary op e)
  | binary {ts us : List Token} {op : Token} {l r : Expr} :
      (∃ o, op.kind = .binary o) ∨ (∃ a, op.kind = .access a) → ReadFrom ts l → ReadFrom us r →
      ReadFrom (ts ++ op :: us) (.binary l op r)
  | index {ts us : List Token} {left right : Token} {a i : Expr} : left.kind = .leftBracket →
      right.kind = .rightBracket → ReadFrom ts a → ReadFrom us i →
      ReadFrom (ts ++ left :: us ++ [right]) (.index a i (a.span + right.span))
  | array {ts : List Token} {left right : Token} {es : List Expr} : left.kind = .leftBracket →
      right.kind = .rightBracket → AllReadFrom ts es →
      ReadFrom (left :: ts ++ [right]) (.array es (left.span + right.span))
  | call {ts us : List Token} {left right : Token} {f : Expr} {es : List Expr} :
      left.kind = .leftParen → right.kind = .rightParen → ReadFrom ts f → AllReadFrom us es →
      ReadFrom (ts ++ left :: us ++ [right]) (.call f es (f.span + right.span))
  | new {word type : Token} : word.kind = .keyword .new →
      ReadFrom [word, type] (.construct type none (word.span + type.span))
  | construct {ts : List Token} {word type left right : Token} {es : List Expr} :
      word.kind = .keyword .new → left.kind = .leftParen → right.kind = .rightParen →
      AllReadFrom ts es → ReadFrom (word :: type :: left :: ts ++ [right])
        (.construct type (some es) (word.span + type.span + right.span))

inductive Expr.AllReadFrom : List Token → List Expr → Prop
  | nil : AllReadFrom [] []
  | one {ts : List Token} {e : Expr} : ReadFrom ts e → AllReadFrom ts [e]
  | more {ts us : List Token} {comma : Token} {es : List Expr} {e : Expr} : es ≠ [] →
      comma.kind = .comma → AllReadFrom ts es → ReadFrom us e →
      AllReadFrom (ts ++ comma :: us) (es ++ [e])

end

open Lss.Expr

/-! Replies. -/

namespace Reply

variable {α β : Type} {ss ts us : List Token} {Q : List Token → α → Prop}
  {R : List Token → β → Prop}

/-- A result of reading on from `ss` satisfies `Q` together with the tokens taken for it. -/
def Consumes (ss : List Token) (Q : List Token → α → Prop) : Reply α ts → Prop
  | .done a rest _ _ => ∃ taken, ss = taken ++ rest ∧ Q taken a
  | .gaveUp _ _ _ _ => True

theorem Consumes.after {r : Reply β ts} {notes : List Diagnostic} (h : r.Consumes ss R) :
    (r.after notes).Consumes ss R := by
  cases r with
  | done b rest more hs => exact h
  | gaveUp moved rest more hs => trivial

theorem Consumes.start {r : Reply α ts}
    {f : (a : α) → (rest : List Token) → Shorter rest ts → Reply β ts} (h : r.Consumes us Q)
    (hf : ∀ a rest hs taken, us = taken ++ rest → Q taken a → (f a rest hs).Consumes ss R) :
    (r.start f).Consumes ss R := by
  cases r with
  | done a rest notes hs =>
    obtain ⟨taken, htaken, hq⟩ := h
    exact (hf a rest hs taken htaken hq).after
  | gaveUp moved rest notes hs => trivial

theorem Consumes.next {ts' : List Token} {r : Reply α ts'} {hs : Shorter ts' ts}
    {f : (a : α) → (rest : List Token) → Shorter rest ts → Reply β ts} (h : r.Consumes us Q)
    (hf : ∀ a rest hr, Shorter rest ts' → ∀ taken, us = taken ++ rest → Q taken a →
      (f a rest hr).Consumes ss R) : (r.next hs f).Consumes ss R := by
  cases r with
  | done a rest notes hr =>
    obtain ⟨taken, htaken, hq⟩ := h
    exact (hf a rest _ hr taken htaken hq).after
  | gaveUp moved rest notes hr => trivial

theorem Consumes.last {ts' : List Token} {r : Reply α ts'} {hs : Shorter ts' ts}
    (h : r.Consumes ss Q) : (r.last hs).Consumes ss Q := by
  cases r with
  | done a rest notes hr => exact h
  | gaveUp moved rest notes hr => trivial

end Reply

namespace Parser

variable {fin : Token} {ss ts us rest : List Token}

/-! Tokens. -/

theorem expect_consumes {kind : TokenKind} {context : String} :
    (expect kind context fin ts).Consumes ts fun taken t => taken = [t] ∧ t.kind = kind := by
  unfold expect
  split
  · next t rest =>
    split
    · next hk => exact ⟨[t], rfl, rfl, hk⟩
    · trivial
  · trivial

theorem identifier_consumes {context : String} :
    (identifier context fin ts).Consumes ts fun taken t => taken = [t] := by
  unfold identifier
  split
  · next t rest =>
    split
    · exact ⟨[t], rfl, rfl⟩
    · trivial
  · trivial

theorem memberName_consumes : (memberName fin ts).Consumes ts fun taken t => taken = [t] := by
  unfold memberName
  split
  · next t rest =>
    split
    · exact ⟨[t], rfl, rfl⟩
    · trivial
  · trivial

/-! Expressions. -/

def Closed (close : TokenKind) (taken : List Token) (x : Expr × Token) : Prop :=
  ∃ us, taken = us ++ [x.2] ∧ x.2.kind = close ∧ ReadFrom us x.1

def AllClosed (close : TokenKind) (taken : List Token) (x : List Expr × Token) : Prop :=
  ∃ us, taken = us ++ [x.2] ∧ x.2.kind = close ∧ AllReadFrom us x.1

theorem finishArguments_consumes {all : List Token} {close : TokenKind} {context : String}
    {acc : List Expr} {notes : List Diagnostic} {h : Shorter ts all} (hs : ss = us ++ ts)
    (hacc : AllReadFrom us acc.reverse) :
    (finishArguments fin close context acc notes ts h).Consumes ss (AllClosed close) := by
  unfold finishArguments
  refine .after (.next expect_consumes fun mark rest hr _ taken htaken hmark => ?_)
  obtain ⟨rfl, hk⟩ := hmark
  exact ⟨us ++ [mark], by rw [hs, htaken, List.append_assoc], us, rfl, hk, hacc⟩

mutual

theorem expression_consumes (fin : Token) (ts : List Token) :
    (expression fin ts).Consumes ts ReadFrom := by
  rw [expression]
  exact binary_consumes fin 1 ts
termination_by 8 * ts.length + 5

theorem binary_consumes (fin : Token) (floor : Nat) (ts : List Token) :
    (binary fin floor ts).Consumes ts ReadFrom := by
  rw [binary]
  have hu := unary_consumes fin ts
  split
  · next left rest notes hs heq =>
    rw [heq] at hu
    obtain ⟨taken, htaken, hleft⟩ := hu
    exact binaryTail_consumes fin floor left notes rest hs htaken hleft
  · trivial
termination_by 8 * ts.length + 4
decreasing_by all_goals omega

theorem binaryTail_consumes {all ss us : List Token} (fin : Token) (floor : Nat) (left : Expr)
    (notes : List Diagnostic) : (ts : List Token) → (hs : Shorter ts all) → ss = us ++ ts →
    ReadFrom us left → (binaryTail fin floor left notes ts hs).Consumes ss ReadFrom
  | [], hs, h, hl => by
    rw [binaryTail]
    exact ⟨us, h, hl⟩
  | t :: rest, hs, h, hl => by
    rw [binaryTail]
    split
    · next op hop =>
      split
      · exact ⟨us, h, hl⟩
      · have hr := binary_consumes fin (rightFloor op) rest
        split
        · next right rest' more h' heq =>
          rw [heq] at hr
          obtain ⟨taken, htaken, hright⟩ := hr
          exact binaryTail_consumes fin floor _ _ rest' (h'.behind hs) (by simp [h, htaken])
            (.binary (.inl ⟨op, hop⟩) hl hright)
        · trivial
    · exact ⟨us, h, hl⟩
termination_by ts => 8 * ts.length
decreasing_by all_goals (simp only [List.length_cons]; omega)

theorem unary_consumes (fin : Token) : (ts : List Token) → (unary fin ts).Consumes ts ReadFrom
  | [] => by
    rw [unary]
    exact trailing_consumes fin []
  | t :: rest => by
    have signed (hk : t.kind.isPrefix) : ((unary fin rest).next (.tail t rest) fun e rest' hr =>
        .done (applyUnary t e) rest' [] hr).Consumes (t :: rest) ReadFrom :=
      .next (unary_consumes fin rest) fun e rest' hr _ taken htaken he =>
        ⟨t :: taken, by rw [htaken, List.cons_append], .unary hk he⟩
    rw [unary]
    split
    · next hk => exact signed (by rw [hk]; rfl)
    · next hk => exact signed (by rw [hk]; rfl)
    · next hk => exact signed (by rw [hk]; rfl)
    · exact trailing_consumes fin (t :: rest)
termination_by ts => 8 * ts.length + 3
decreasing_by
  · omega
  all_goals (simp only [List.length_cons]; omega)

theorem trailing_consumes (fin : Token) (ts : List Token) :
    (trailing fin ts).Consumes ts ReadFrom := by
  rw [trailing]
  have hp := primary_consumes fin ts
  split
  · next e rest notes hs heq =>
    rw [heq] at hp
    obtain ⟨taken, htaken, he⟩ := hp
    exact trailingTail_consumes fin e notes rest hs htaken he
  · trivial
termination_by 8 * ts.length + 2
decreasing_by all_goals omega

theorem trailingTail_consumes {all ss us : List Token} (fin : Token) (e : Expr)
    (notes : List Diagnostic) : (ts : List Token) → (hs : Shorter ts all) → ss = us ++ ts →
    ReadFrom us e → (trailingTail fin e notes ts hs).Consumes ss ReadFrom
  | [], hs, h, he => by
    rw [trailingTail]
    exact ⟨us, h, he⟩
  | t :: rest, hs, h, he => by
    rw [trailingTail]
    split
    · next hop =>
      have hm : (memberName fin rest).Consumes rest _ := memberName_consumes
      split
      · next name rest' more h' heq =>
        rw [heq] at hm
        obtain ⟨_, htaken, rfl⟩ := hm
        exact trailingTail_consumes fin _ _ rest' (h'.behind hs) (by simp [h, htaken])
          (.binary (.inr ⟨_, hop⟩) he .variable)
      · trivial
    · next hop =>
      have hm : (identifier "after '::'" fin rest).Consumes rest _ := identifier_consumes
      split
      · next name rest' more h' heq =>
        rw [heq] at hm
        obtain ⟨_, htaken, rfl⟩ := hm
        exact trailingTail_consumes fin _ _ rest' (h'.behind hs) (by simp [h, htaken])
          (.binary (.inr ⟨_, hop⟩) he .variable)
      · trivial
    · next hop =>
      have hm := primary_consumes fin rest
      split
      · next name rest' more h' heq =>
        rw [heq] at hm
        obtain ⟨taken, htaken, hname⟩ := hm
        exact trailingTail_consumes fin _ _ rest' (h'.behind hs) (by simp [h, htaken])
          (.binary (.inr ⟨_, hop⟩) he hname)
      · trivial
    · next hop =>
      have hm := primary_consumes fin rest
      split
      · next name rest' more h' heq =>
        rw [heq] at hm
        obtain ⟨taken, htaken, hname⟩ := hm
        exact trailingTail_consumes fin _ _ rest' (h'.behind hs) (by simp [h, htaken])
          (.binary (.inr ⟨_, hop⟩) he hname)
      · trivial
    · next hop =>
      have hm := closed_consumes fin .rightBracket "after index" rest
      split
      · next i close rest' more h' heq =>
        rw [heq] at hm
        obtain ⟨_, htaken, inside, rfl, hclose, hi⟩ := hm
        exact trailingTail_consumes fin _ _ rest' (h'.behind hs) (by simp [h, htaken])
          (.index hop hclose he hi)
      · trivial
    · next hop =>
      have hm := arguments_consumes fin .rightParen "after arguments" rest
      split
      · next es close rest' more h' heq =>
        rw [heq] at hm
        obtain ⟨_, htaken, inside, rfl, hclose, hes⟩ := hm
        exact trailingTail_consumes fin _ _ rest' (h'.behind hs) (by simp [h, htaken])
          (.call hop hclose he hes)
      · trivial
    · exact ⟨us, h, he⟩
termination_by ts => 8 * ts.length
decreasing_by all_goals (simp only [List.length_cons]; omega)

theorem primary_consumes (fin : Token) : (ts : List Token) → (primary fin ts).Consumes ts ReadFrom
  | [] => by
    rw [primary]
    trivial
  | t :: rest => by
    rw [primary]
    split
    · exact ⟨[t], rfl, .variable⟩
    · exact ⟨[t], rfl, .variable⟩
    · next hk =>
      refine .next (closed_consumes fin .rightParen _ rest) fun x rest' hr _ taken htaken hx => ?_
      obtain ⟨inside, rfl, hclose, he⟩ := hx
      exact ⟨t :: inside ++ [x.2], by simp [htaken], .grouping hk hclose he⟩
    · next hk =>
      refine .next (arguments_consumes fin .rightBracket _ rest)
        fun x rest' hr _ taken htaken hx => ?_
      obtain ⟨inside, rfl, hclose, hes⟩ := hx
      exact ⟨t :: inside ++ [x.2], by simp [htaken], .array hk hclose hes⟩
    · next hk => exact .last (construction_consumes fin t rest hk)
    · split
      · next hliteral => exact ⟨[t], rfl, .literal hliteral⟩
      · trivial
termination_by ts => 8 * ts.length + 1
decreasing_by all_goals (simp only [List.length_cons]; omega)

theorem construction_consumes (fin keyword : Token) (ts : List Token)
    (hk : keyword.kind = .keyword .new) :
    (construction fin keyword ts).Consumes (keyword :: ts) ReadFrom := by
  rw [construction]
  refine .start identifier_consumes fun type rest hr taken htaken htype => ?_
  subst htype
  split
  · exact ⟨[keyword, type], by simp [htaken], .new hk⟩
  · next t rest hr =>
    have _lt : Shorter rest ts := hr.of_cons
    split
    · next hopen =>
      refine .next (arguments_consumes fin .rightParen _ rest)
        fun x rest' hr' _ taken htaken' hx => ?_
      obtain ⟨inside, rfl, hclose, hes⟩ := hx
      exact ⟨keyword :: type :: t :: inside ++ [x.2], by simp [htaken, htaken'],
        .construct hk hopen hclose hes⟩
    · exact ⟨[keyword, type], by simp [htaken], .new hk⟩
termination_by 8 * ts.length + 7
decreasing_by all_goals omega

theorem closed_consumes (fin : Token) (close : TokenKind) (context : String) (ts : List Token) :
    (closed fin close context ts).Consumes ts (Closed close) := by
  rw [closed]
  refine .start (expression_consumes fin ts) fun e rest hr taken htaken he => ?_
  refine .next expect_consumes fun mark rest' _ _ taken' htaken' hmark => ?_
  obtain ⟨rfl, hk⟩ := hmark
  exact ⟨taken ++ [mark], by simp [htaken, htaken'], taken, rfl, hk, he⟩
termination_by 8 * ts.length + 6
decreasing_by all_goals omega

theorem arguments_consumes (fin : Token) (close : TokenKind) (context : String) (ts : List Token) :
    (arguments fin close context ts).Consumes ts (AllClosed close) := by
  rw [arguments]
  split
  · refine .start expect_consumes fun mark rest hr taken htaken hmark => ?_
    obtain ⟨rfl, hk⟩ := hmark
    exact ⟨[mark], htaken, [], rfl, hk, .nil⟩
  · have he := expression_consumes fin ts
    split
    · next e rest notes hs heq =>
      rw [heq] at he
      obtain ⟨taken, htaken, he⟩ := he
      exact argumentsTail_consumes fin close context [e] notes rest hs htaken (.one he) nofun
    · trivial
termination_by 8 * ts.length + 6
decreasing_by all_goals omega

theorem argumentsTail_consumes {all ss us : List Token} (fin : Token) (close : TokenKind)
    (context : String) (acc : List Expr) (notes : List Diagnostic) : (ts : List Token) →
    (hs : Shorter ts all) → ss = us ++ ts → AllReadFrom us acc.reverse → acc ≠ [] →
    (argumentsTail fin close context acc notes ts hs).Consumes ss (AllClosed close)
  | [], hs, h, hacc, hne => by
    rw [argumentsTail]
    exact finishArguments_consumes h hacc
  | t :: rest, hs, h, hacc, hne => by
    rw [argumentsTail]
    split
    · next hcomma =>
      have he := expression_consumes fin rest
      split
      · next e rest' more h' heq =>
        rw [heq] at he
        obtain ⟨taken, htaken, he⟩ := he
        have hss : ss = us ++ t :: taken ++ rest' := by simp [h, htaken]
        refine argumentsTail_consumes fin close context (e :: acc) _ rest' (h'.behind hs) hss ?_
          (List.cons_ne_nil e acc)
        rw [List.reverse_cons]
        exact .more (by simpa using hne) hcomma hacc he
      · trivial
    · exact finishArguments_consumes h hacc
termination_by ts => 8 * ts.length
decreasing_by all_goals (simp only [List.length_cons]; omega)

end

end Parser

end Lss
