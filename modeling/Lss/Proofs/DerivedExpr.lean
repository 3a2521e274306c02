import Lss.Proofs.Grammar
import Lss.Proofs.RereadUnit

/-!
# What is read is derived: expressions

A parser that gives a result without complaint has found a derivation of it, with every choice made:
the tree is the one that precedence gives, and arguments behind `new T` are its own.
-/
namespace Lss

/-! Precedence as levels. -/

namespace Grammar

variable {o i : BinaryOp} {l r : Expr}

theorem groupsRight_eq (h : o.precedence = i.precedence) : o.groupsRight = i.groupsRight := by
  have tightest (o : BinaryOp) : o.groupsRight = (o.precedence == 11) := by cases o <;> rfl
  rw [tightest, tightest, h]

theorem leftOf_iff : LeftOf o i ↔ o.precedence < Parser.rightFloor i := by
  unfold LeftOf Parser.rightFloor
  by_cases h : o.precedence = i.precedence
  · rw [groupsRight_eq h]
    by_cases hg : i.groupsRight = true
    · simp [h, hg]
    · simp [h, hg]
  · split <;> omega

theorem rightOf_iff : RightOf o i ↔ Parser.rightFloor o ≤ i.precedence := by
  unfold RightOf Parser.rightFloor
  by_cases hg : o.groupsRight = true
  · simp only [hg, if_true, and_true]
    omega
  · simp only [hg, Bool.false_eq_true, if_false, and_false, or_false]
    omega

/-- Of two operators with an operand between them, one takes it. -/
theorem rightOf_of_not_leftOf (h : ¬LeftOf i o) : RightOf o i := by
  rw [leftOf_iff] at h
  rw [rightOf_iff]
  omega

theorem leftOf_operator_iff : (∀ i ∈ l.topOperator?, LeftOf o i) ↔ o.precedence < l.hold := by
  have hlt : o.precedence < 12 := o.precedence_lt
  cases l with
  | binary _ op _ =>
    cases hk : op.kind <;>
      simp [Expr.topOperator?, Expr.hold, TokenKind.hold, TokenKind.operator?, hk, leftOf_iff, hlt]
  | _ => simpa [Expr.topOperator?, Expr.hold] using hlt

theorem rightOf_operator_iff : (∀ i ∈ r.topOperator?, RightOf o i) ↔
    Parser.rightFloor o ≤ r.power := by
  have hlt : Parser.rightFloor o < 12 := o.rightFloor_lt
  cases r with
  | binary _ op _ =>
    cases hk : op.kind <;>
      simp only [Expr.topOperator?, Expr.power, TokenKind.power, TokenKind.operator?, hk,
        Option.mem_def, Option.some.injEq, forall_eq', rightOf_iff, reduceCtorEq, false_imp_iff,
        implies_true, true_iff] <;>
      omega
  | literal t =>
    simp only [Expr.topOperator?, Expr.power, Option.mem_def, reduceCtorEq, false_imp_iff,
      implies_true, true_iff]
    split <;> omega
  | _ =>
    simp only [Expr.topOperator?, Expr.power, Option.mem_def, reduceCtorEq, false_imp_iff,
      implies_true, true_iff]
    omega

theorem fits_iff : Fits o l r ↔ o.precedence < l.hold ∧ Parser.rightFloor o ≤ r.power := by
  rw [Fits, leftOf_operator_iff, rightOf_operator_iff]

variable {G : Prop} {e : Expr} {ts rest : List Token}

theorem Primary.power (h : Primary G ts e rest) : 12 ≤ e.power := by
  cases h with
  | literal _ =>
    simp only [Expr.power]
    split <;> decide
  | _ => simp [Expr.power]

theorem Trailing.power (h : Trailing G ts e rest) : 12 ≤ e.power := by
  cases h with
  | primary h => exact h.power
  | member hk | scope hk => simp [Expr.power, hk, TokenKind.power]
  | dynamic hk => rcases hk with hk | hk <;> simp [Expr.power, hk, TokenKind.power]
  | index | call => simp [Expr.power]

/-- What is derived without a binary operator at its top binds tighter than all of them. -/
theorem Unary.power (h : Unary G ts e rest) : 12 ≤ e.power := by
  cases h with
  | trailing h => exact h.power
  | number =>
    simp only [Expr.power]
    split <;> decide
  | operator => simp [Expr.power]

end Grammar

/-! Replies. -/

namespace Reply

variable {α β : Type} {ss ts : List Token} {P : α → List Token → Prop} {Q : β → List Token → Prop}

def Sound (P : α → List Token → Prop) : Reply α ts → Prop
  | .done a rest notes _ => notes = [] → P a rest
  | .gaveUp _ _ notes _ => notes ≠ []

theorem Sound.after {r : Reply α ts} {notes : List Diagnostic}
    (h : notes = [] → r.Sound P) : (r.after notes).Sound P := by
  by_cases hn : notes = []
  · subst hn
    cases r with
    | done a rest more hs => exact h rfl
    | gaveUp moved rest more hs => exact h rfl
  · cases r with
    | done a rest more hs =>
      intro hq
      exact absurd (List.append_eq_nil_iff.mp hq).1 hn
    | gaveUp moved rest more hs =>
      intro hq
      exact hn (List.append_eq_nil_iff.mp hq).1

theorem Sound.start {r : Reply α ts}
    {f : (a : α) → (rest : List Token) → Shorter rest ts → Reply β ts} (h : r.Sound P)
    (hf : ∀ a rest hs, P a rest → (f a rest hs).Sound Q) : (r.start f).Sound Q := by
  cases r with
  | done a rest notes hs => exact .after fun hn => hf a rest hs (h hn)
  | gaveUp moved rest notes hs => exact h

theorem Sound.next {r : Reply α ss} {hs : Shorter ss ts}
    {f : (a : α) → (rest : List Token) → Shorter rest ts → Reply β ts} (h : r.Sound P)
    (hf : ∀ a rest hr, P a rest → (f a rest hr).Sound Q) : (r.next hs f).Sound Q := by
  cases r with
  | done a rest notes hr => exact .after fun hn => hf a rest _ (h hn)
  | gaveUp moved rest notes hr => exact h

theorem Sound.last {r : Reply α ss} {hs : Shorter ss ts} (h : r.Sound P) : (r.last hs).Sound P := by
  cases r with
  | done a rest notes hr => exact h
  | gaveUp moved rest notes hr => exact h

theorem Sound.imp {P' : α → List Token → Prop} {r : Reply α ts} (h : r.Sound P)
    (himp : ∀ a rest, P a rest → P' a rest) : r.Sound P' := by
  cases r with
  | done a rest notes hr => exact fun hn => himp a rest (h hn)
  | gaveUp moved rest notes hr => exact h

/-- A later complaint is a complaint. -/
theorem append_ne_nil {notes more : List Diagnostic} (h : more ≠ []) : notes ++ more ≠ [] :=
  List.append_ne_nil_of_right_ne_nil notes h

end Reply

namespace Parser

open Grammar

variable {fin : Token} {ts rest : List Token}

theorem expect_sound {kind : TokenKind} {context : String} :
    (expect kind context fin ts).Sound fun t rest => t.kind = kind ∧ ts = t :: rest := by
  unfold expect
  split
  · split
    · next hk => exact fun _ => ⟨hk, rfl⟩
    · exact List.cons_ne_nil _ _
  · exact List.cons_ne_nil _ _

theorem identifier_sound {context : String} :
    (identifier context fin ts).Sound fun t rest => t.kind = .identifier ∧ ts = t :: rest := by
  unfold identifier
  split
  · split
    · next hk => exact fun _ => ⟨hk, rfl⟩
    · exact List.cons_ne_nil _ _
  · exact List.cons_ne_nil _ _

theorem memberName_sound : (memberName fin ts).Sound fun t rest =>
    (t.kind = .identifier ∨ t.kind.isProperty) ∧ ts = t :: rest := by
  unfold memberName
  split
  · split
    · next hk =>
      simp only [Bool.or_eq_true, decide_eq_true_eq] at hk
      exact fun _ => ⟨hk, rfl⟩
    · exact List.cons_ne_nil _ _
  · exact List.cons_ne_nil _ _

theorem negateText_opposite (text : String) : Opposite text (negateText text) := by
  by_cases h : text.toList.head? = some '-'
  · obtain ⟨cs, hcs⟩ := List.head?_eq_some_iff.mp h
    rw [negateText_signed hcs]
    exact .inl (by rw [hcs, String.toList_ofList])
  · rw [negateText_unsigned h]
    exact .inr ⟨h, String.toList_ofList⟩

theorem applyUnary_derived {op : Token} {e : Expr} (hk : op.kind.isPrefix)
    (h : Unary True ts e rest) : Unary True (op :: ts) (applyUnary op e) rest := by
  unfold applyUnary
  split
  · next t =>
    by_cases hn : op.kind = .binary .sub ∧ (t.kind = .integer ∨ t.kind = .float)
    · rw [if_pos hn]
      exact .number hn.1 hn.2 (negateText_opposite t.text) h
    · rw [if_neg hn]
      apply Unary.operator hk _ h
      rintro hsub _ ⟨⟩ ht
      exact hn ⟨hsub, ht⟩
  · next hl =>
    apply Unary.operator hk _ h
    intro _ t ht
    cases e with
    | literal t => exact absurd rfl (hl t)
    | _ => cases ht

theorem finishArguments_sound {all : List Token} {close : TokenKind} {context : String}
    {acc : List Expr} {notes : List Diagnostic} {h : Shorter ts all} :
    (finishArguments fin close context acc notes ts h).Sound fun x rest => notes = [] ∧
      x.1 = acc.reverse ∧ (close = .rightParen → x.1.length ≤ ParseFault.maxArguments) ∧
      x.2.kind = close ∧ ts = x.2 :: rest := by
  unfold finishArguments
  refine .after fun hq => .next expect_sound ?_
  rintro mark rest' - ⟨hk, rfl⟩ -
  obtain ⟨hnotes, hexcess⟩ := List.append_eq_nil_iff.mp hq
  refine ⟨hnotes, rfl, ?_, hk, rfl⟩
  rintro rfl
  simp only [decide_true, Bool.true_and, decide_eq_true_eq, ite_eq_right_iff, reduceCtorEq,
    imp_false, Nat.not_lt] at hexcess
  rwa [List.length_reverse]

/-! Each function of the parser, with the measure by which it ends. -/

mutual

theorem expression_sound (fin : Token) (ts : List Token) :
    (expression fin ts).Sound fun e rest => Expression True ts e rest := by
  rw [expression]
  exact (binary_sound fin 1 ts (by decide)).imp fun e rest h => h.1
termination_by 8 * ts.length + 5
decreasing_by all_goals omega

theorem binary_sound (fin : Token) (floor : Nat) (ts : List Token) (hfloor : floor ≤ 12) :
    (binary fin floor ts).Sound fun e rest =>
      Expression True ts e rest ∧ floor ≤ e.power ∧ Below floor rest := by
  rw [binary]
  have hu := unary_sound fin ts
  split
  · next left rest notes hs heq =>
    rw [heq] at hu
    apply binaryTail_sound fin floor left notes rest hs ts
    intro hn
    have hp := (hu hn).power
    refine ⟨.unary (hu hn), by omega, fun t ht o ho => ?_⟩
    rw [Expr.hold_of_power hp]
    exact o.precedence_lt
  · next heq =>
    rw [heq] at hu
    exact hu
termination_by 8 * ts.length + 4
decreasing_by all_goals omega

/-- Operators behind `left`, which was derived from `ss`. -/
theorem binaryTail_sound {all : List Token} (fin : Token) (floor : Nat) (left : Expr)
    (notes : List Diagnostic) : (ts : List Token) → (hs : Shorter ts all) → (ss : List Token) →
    (notes = [] → Expression True ss left ts ∧ floor ≤ left.power ∧ Below left.hold ts) →
    (binaryTail fin floor left notes ts hs).Sound fun e rest =>
      Expression True ss e rest ∧ floor ≤ e.power ∧ Below floor rest
  | [], hs, ss, hl => by
    rw [binaryTail]
    intro hn
    exact ⟨(hl hn).1, (hl hn).2.1, by rintro t ⟨⟩⟩
  | t :: rest, hs, ss, hl => by
    rw [binaryTail]
    split
    · next op hop =>
      split
      · next hlt =>
        intro hn
        refine ⟨(hl hn).1, (hl hn).2.1, ?_⟩
        rintro _ ⟨⟩ o ho
        rw [hop] at ho
        cases ho
        exact hlt
      · next hge =>
        have hr := binary_sound fin (rightFloor op) rest (Nat.le_of_lt op.rightFloor_lt)
        split
        · next right rest' more h' heq =>
          rw [heq] at hr
          apply binaryTail_sound fin floor _ _ rest' (h'.behind hs) ss
          intro hn
          obtain ⟨hnotes, hmore⟩ := List.append_eq_nil_iff.mp hn
          obtain ⟨hld, -, hlb⟩ := hl hnotes
          obtain ⟨hrd, hrp, hrb⟩ := hr hmore
          have hfits : Fits op left right := fits_iff.mpr ⟨hlb t rfl op hop, hrp⟩
          refine ⟨.binary hop (fun _ => hfits) hld hrd, ?_, ?_⟩
          · simp only [Expr.power, hop, TokenKind.power]
            omega
          · simpa only [Expr.hold, hop, TokenKind.hold] using hrb
        · next heq =>
          rw [heq] at hr
          exact Reply.append_ne_nil hr
    · next hop =>
      intro hn
      refine ⟨(hl hn).1, (hl hn).2.1, ?_⟩
      rintro _ ⟨⟩ o ho
      exact absurd ho (hop o)
termination_by ts => 8 * ts.length
decreasing_by all_goals (simp only [List.length_cons]; omega)

theorem unary_sound (fin : Token) : (ts : List Token) →
    (unary fin ts).Sound fun e rest => Unary True ts e rest
  | [] => by
    rw [unary]
    exact (trailing_sound fin []).imp fun e rest h => .trailing h
  | t :: rest => by
    have signed (hk : t.kind.isPrefix) : ((unary fin rest).next (.tail t rest) fun e rest' hr =>
        .done (applyUnary t e) rest' [] hr).Sound (Unary True (t :: rest)) := by
      apply Reply.Sound.next (unary_sound fin rest)
      intro e rest' _ he _
      exact applyUnary_derived hk he
    rw [unary]
    split
    · next hk => exact signed (by simp [hk, TokenKind.isPrefix])
    · next hk => exact signed (by simp [hk, TokenKind.isPrefix])
    · next hk => exact signed (by simp [hk, TokenKind.isPrefix])
    · exact (trailing_sound fin (t :: rest)).imp fun e rest h => .trailing h
termination_by ts => 8 * ts.length + 3

theorem trailing_sound (fin : Token) (ts : List Token) :
    (trailing fin ts).Sound fun e rest => Trailing True ts e rest := by
  rw [trailing]
  have hp := primary_sound fin ts
  split
  · next e rest notes hs heq =>
    rw [heq] at hp
    apply trailingTail_sound fin e notes rest hs ts
    intro hn
    exact ⟨.primary (hp hn).1, (hp hn).2⟩
  · next heq =>
    rw [heq] at hp
    exact hp
termination_by 8 * ts.length + 2
decreasing_by all_goals omega

/-- Accesses, indices and calls behind `e`, which was derived from `ss`. -/
theorem trailingTail_sound {all : List Token} (fin : Token) (e : Expr) (notes : List Diagnostic) :
    (ts : List Token) → (hs : Shorter ts all) → (ss : List Token) →
    (notes = [] → Trailing True ss e ts ∧ (e.endsBare → NoArguments ts)) →
    (trailingTail fin e notes ts hs).Sound fun e rest => Trailing True ss e rest
  | [], hs, ss, he => by
    rw [trailingTail]
    exact fun hn => (he hn).1
  | t :: rest, hs, ss, he => by
    rw [trailingTail]
    split
    · next hop =>
      have hm : (memberName fin rest).Sound _ := memberName_sound
      split
      · next name rest' more h' heq =>
        rw [heq] at hm
        apply trailingTail_sound fin _ _ rest' (h'.behind hs) ss
        intro hn
        obtain ⟨hnotes, hmore⟩ := List.append_eq_nil_iff.mp hn
        obtain ⟨hname, rfl⟩ := hm hmore
        exact ⟨.member hop hname (he hnotes).1, by simp [Expr.endsBare]⟩
      · next heq =>
        rw [heq] at hm
        exact Reply.append_ne_nil hm
    · next hop =>
      have hm : (identifier "after '::'" fin rest).Sound _ := identifier_sound
      split
      · next name rest' more h' heq =>
        rw [heq] at hm
        apply trailingTail_sound fin _ _ rest' (h'.behind hs) ss
        intro hn
        obtain ⟨hnotes, hmore⟩ := List.append_eq_nil_iff.mp hn
        obtain ⟨hname, rfl⟩ := hm hmore
        exact ⟨.scope hop hname (he hnotes).1, by simp [Expr.endsBare]⟩
      · next heq =>
        rw [heq] at hm
        exact Reply.append_ne_nil hm
    · next hop =>
      have hm := primary_sound fin rest
      split
      · next name rest' more h' heq =>
        rw [heq] at hm
        apply trailingTail_sound fin _ _ rest' (h'.behind hs) ss
        intro hn
        obtain ⟨hnotes, hmore⟩ := List.append_eq_nil_iff.mp hn
        refine ⟨.dynamic (.inl hop) (he hnotes).1 (hm hmore).1, ?_⟩
        simpa [Expr.endsBare, hop, TokenKind.isAccess] using (hm hmore).2
      · next heq =>
        rw [heq] at hm
        exact Reply.append_ne_nil hm
    · next hop =>
      have hm := primary_sound fin rest
      split
      · next name rest' more h' heq =>
        rw [heq] at hm
        apply trailingTail_sound fin _ _ rest' (h'.behind hs) ss
        intro hn
        obtain ⟨hnotes, hmore⟩ := List.append_eq_nil_iff.mp hn
        refine ⟨.dynamic (.inr hop) (he hnotes).1 (hm hmore).1, ?_⟩
        simpa [Expr.endsBare, hop, TokenKind.isAccess] using (hm hmore).2
      · next heq =>
        rw [heq] at hm
        exact Reply.append_ne_nil hm
    · next hop =>
      have hm := closed_sound fin .rightBracket "after index" rest
      split
      · next i close rest' more h' heq =>
        rw [heq] at hm
        apply trailingTail_sound fin _ _ rest' (h'.behind hs) ss
        intro hn
        obtain ⟨hnotes, hmore⟩ := List.append_eq_nil_iff.mp hn
        obtain ⟨hclose, hi⟩ := hm hmore
        exact ⟨.index hop hclose (he hnotes).1 hi, by simp [Expr.endsBare]⟩
      · next heq =>
        rw [heq] at hm
        exact Reply.append_ne_nil hm
    · next hop =>
      have hm := arguments_sound fin .rightParen "after arguments" rest
      split
      · next es close rest' more h' heq =>
        rw [heq] at hm
        apply trailingTail_sound fin _ _ rest' (h'.behind hs) ss
        intro hn
        obtain ⟨hnotes, hmore⟩ := List.append_eq_nil_iff.mp hn
        obtain ⟨hclose, hfew, hes⟩ := hm hmore
        have hbare : e.endsBare = false :=
          Bool.eq_false_iff.mpr fun hb => (he hnotes).2 hb t rfl hop
        exact ⟨.call hop hclose (hfew rfl) (fun _ => hbare) (he hnotes).1 hes,
          by simp [Expr.endsBare]⟩
      · next heq =>
        rw [heq] at hm
        exact Reply.append_ne_nil hm
    · exact fun hn => (he hn).1
termination_by ts => 8 * ts.length
decreasing_by all_goals (simp only [List.length_cons]; omega)

theorem primary_sound (fin : Token) : (ts : List Token) → (primary fin ts).Sound fun e rest =>
    Primary True ts e rest ∧ (e.endsBare → NoArguments rest)
  | [] => by
    rw [primary]
    exact List.cons_ne_nil _ _
  | t :: rest => by
    rw [primary]
    split
    · next hk => exact fun _ => ⟨.name (.inl hk), by simp [Expr.endsBare]⟩
    · next hk => exact fun _ => ⟨.name (.inr hk), by simp [Expr.endsBare]⟩
    · next hk =>
      apply Reply.Sound.next (closed_sound fin .rightParen _ rest)
      rintro x rest' _ ⟨hclose, hx⟩ -
      exact ⟨.grouping hk hclose hx, by simp [Expr.endsBare]⟩
    · next hk =>
      apply Reply.Sound.next (arguments_sound fin .rightBracket _ rest)
      rintro x rest' _ ⟨hclose, -, hx⟩ -
      exact ⟨.array hk hclose hx, by simp [Expr.endsBare]⟩
    · next hk => exact .last (construction_sound fin t rest hk)
    · split
      · next hk => exact fun _ => ⟨.literal hk, by simp [Expr.endsBare]⟩
      · exact List.cons_ne_nil _ _
termination_by ts => 8 * ts.length + 1
decreasing_by all_goals (simp only [List.length_cons]; omega)

theorem construction_sound (fin keyword : Token) (ts : List Token)
    (hnew : keyword.kind = .keyword .new) : (construction fin keyword ts).Sound fun e rest =>
      Primary True (keyword :: ts) e rest ∧ (e.endsBare → NoArguments rest) := by
  rw [construction]
  apply Reply.Sound.start identifier_sound
  rintro type rest hr ⟨hname, rfl⟩
  split
  · exact fun _ => ⟨.new hnew hname, by rintro _ t ⟨⟩⟩
  · next t rest hr =>
    split
    · next hk =>
      apply Reply.Sound.next (arguments_sound fin .rightParen _ rest)
      rintro x rest' _ ⟨hclose, hfew, hx⟩ -
      exact ⟨.construct hnew hname hk hclose (hfew rfl) hx, by simp [Expr.endsBare]⟩
    · next hk =>
      refine fun _ => ⟨.new hnew hname, ?_⟩
      rintro _ _ ⟨⟩
      exact hk
termination_by 8 * ts.length + 7

theorem closed_sound (fin : Token) (close : TokenKind) (context : String) (ts : List Token) :
    (closed fin close context ts).Sound fun x rest =>
      x.2.kind = close ∧ Expression True ts x.1 (x.2 :: rest) := by
  rw [closed]
  apply Reply.Sound.start (expression_sound fin ts)
  intro e rest hr he
  apply Reply.Sound.next expect_sound
  rintro mark rest' _ ⟨hk, rfl⟩ -
  exact ⟨hk, he⟩
termination_by 8 * ts.length + 6
decreasing_by all_goals omega

theorem arguments_sound (fin : Token) (close : TokenKind) (context : String) (ts : List Token) :
    (arguments fin close context ts).Sound fun x rest => x.2.kind = close ∧
      (close = .rightParen → x.1.length ≤ ParseFault.maxArguments) ∧
      Arguments True ts x.1 (x.2 :: rest) := by
  rw [arguments]
  split
  · apply Reply.Sound.start expect_sound
    rintro mark rest' _ ⟨hk, rfl⟩ -
    exact ⟨hk, fun _ => Nat.zero_le _, .none⟩
  · have he := expression_sound fin ts
    split
    · next e rest notes hs heq =>
      rw [heq] at he
      apply (argumentsTail_sound fin close context [e] notes rest hs).imp
      rintro ⟨es, mark⟩ rest' ⟨hn, hk, hfew, es', rfl, hes⟩
      exact ⟨hk, hfew, .some (he hn) hes⟩
    · next heq =>
      rw [heq] at he
      exact he
termination_by 8 * ts.length + 6
decreasing_by all_goals omega

theorem argumentsTail_sound {all : List Token} (fin : Token) (close : TokenKind) (context : String)
    (acc : List Expr) (notes : List Diagnostic) : (ts : List Token) → (hs : Shorter ts all) →
    (argumentsTail fin close context acc notes ts hs).Sound fun x rest => notes = [] ∧
      x.2.kind = close ∧ (close = .rightParen → x.1.length ≤ ParseFault.maxArguments) ∧
      ∃ es, x.1 = acc.reverse ++ es ∧ More True ts es (x.2 :: rest)
  | [], hs => by
    rw [argumentsTail]
    apply finishArguments_sound.imp
    rintro x rest ⟨hn, hx, hfew, hk, hts⟩
    exact ⟨hn, hk, hfew, [], by simpa using hx, hts ▸ .none⟩
  | t :: rest, hs => by
    rw [argumentsTail]
    split
    · next hcomma =>
      have he := expression_sound fin rest
      split
      · next e rest' more h' heq =>
        rw [heq] at he
        apply (argumentsTail_sound fin close context (e :: acc) _ rest' (h'.behind hs)).imp
        rintro x rest'' ⟨hn, hk, hfew, es, hx, hes⟩
        obtain ⟨hnotes, hmore⟩ := List.append_eq_nil_iff.mp hn
        exact ⟨hnotes, hk, hfew, e :: es, by simpa using hx, .some hcomma (he hmore) hes⟩
      · next heq =>
        rw [heq] at he
        exact Reply.append_ne_nil he
    · apply finishArguments_sound.imp
      rintro x rest' ⟨hn, hx, hfew, hk, hts⟩
      exact ⟨hn, hk, hfew, [], by simpa using hx, hts ▸ .none⟩
termination_by ts => 8 * ts.length
decreasing_by all_goals (simp only [List.length_cons]; omega)

end

end Parser

end Lss
