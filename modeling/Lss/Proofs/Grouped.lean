import Lss.Lifting.Step
import Lss.Proofs.Literals
import Lss.Proofs.PrintedExpr

/-!
# Expressions put together from formed parts

Each way of putting operands together sets parentheses where a formed expression needs them, so its
result is formed again. Nothing is said of a minus before a number, which is not grouped.
-/
namespace Lss

theorem TokenKind.spelled_of_mark {kind : TokenKind} {text : String} (hm : kind.isMark)
    (ht : kind.lexeme? = some text) : (Token.of kind).Spelled := by
  rw [Token.Spelled, Token.of_spells ht]
  exact .mark hm ht

theorem BinaryOp.spelled (o : BinaryOp) : (Token.of (.binary o)).Spelled :=
  TokenKind.spelled_of_mark rfl rfl

theorem AccessOp.spelled (op : AccessOp) : (Token.of (.access op)).Spelled :=
  TokenKind.spelled_of_mark rfl rfl

theorem UnaryOp.spelled (op : UnaryOp) : (Token.of op.kind).Spelled := by
  cases op <;> exact TokenKind.spelled_of_mark rfl rfl

theorem ArrayOp.isName_name (op : ArrayOp) : IsName op.name := by
  cases op <;> exact .of_isWord (by decide) (by decide)

theorem BinaryOp.groupsRight_of_precedence {o o' : BinaryOp} (h : o.precedence = o'.precedence)
    (hr : o.groupsRight) : o'.groupsRight := by
  have ho : o = .pow := by simpa [groupsRight] using hr
  subst ho
  cases o' <;> first | rfl | cases h

theorem TokenKind.power_of_isAccess {kind : TokenKind} (h : kind.isAccess) : kind.power = 13 := by
  cases kind <;> first | rfl | cases h

namespace Expr

variable {N : String → Prop} {A : Prop} {l r e : Expr}

theorem Formed.groupedIf (h : e.Formed N A False) (c : Bool) :
    (e.groupedIf c).Formed N A False := by
  cases c with
  | true => exact .grouping h
  | false => exact h

/-- The operator at the top of a formed expression that is no access. -/
theorem Formed.precedence?_cases (h : e.Formed N A False) :
    (e.precedence? = none ∧ 12 ≤ e.power) ∨
      ∃ o : BinaryOp, e.precedence? = some o.precedence ∧ e.power = o.precedence ∧
        e.hold = Parser.rightFloor o := by
  cases h with
  | @binary _ _ op o hk _ _ _ _ _ =>
    refine .inr ⟨o, ?_, ?_, ?_⟩
    · rw [precedence?, hk]; rfl
    · rw [power, hk]; rfl
    · rw [hold, hk]; rfl
  | member hk | scope hk =>
    refine .inl ⟨?_, ?_⟩
    · rw [precedence?, hk]; rfl
    · rw [power, hk]; decide
  | dynamic hk =>
    refine .inl ⟨?_, ?_⟩
    · rcases hk with hk | hk <;> rw [precedence?, hk] <;> rfl
    · rcases hk with hk | hk <;> rw [power, hk] <;> decide
  | literal | signed =>
    refine .inl ⟨rfl, ?_⟩
    rw [power]
    split <;> decide
  | _ => exact .inl ⟨rfl, by simp [power]⟩

theorem Formed.precedence_lt_hold (h : l.Formed N A False) (o : BinaryOp) :
    o.precedence < (l.groupedIf (l.groupsLeftOf o.precedence o.groupsRight)).hold := by
  cases hg : l.groupsLeftOf o.precedence o.groupsRight with
  | true => exact o.precedence_lt
  | false =>
    show o.precedence < l.hold
    rcases h.precedence?_cases with ⟨-, hp⟩ | ⟨o', hp, -, hhold⟩
    · rw [hold_of_power hp]
      exact o.precedence_lt
    · simp only [groupsLeftOf, hp, Bool.or_eq_false_iff, decide_eq_false_iff_not,
        Bool.and_eq_false_iff, beq_eq_false_iff_ne] at hg
      obtain ⟨hle, hne⟩ := hg
      rw [hhold, Parser.rightFloor]
      split
      · next hr =>
        rcases hne with hne | hne
        · omega
        · by_cases heq : o'.precedence = o.precedence
          · rw [BinaryOp.groupsRight_of_precedence heq hr] at hne
            cases hne
          · omega
      · omega

theorem Formed.rightFloor_le_power (h : r.Formed N A False) (o : BinaryOp) :
    Parser.rightFloor o ≤ (r.groupedIf (r.groupsRightOf o.precedence o.groupsRight)).power := by
  have hlt := o.rightFloor_lt
  cases hg : r.groupsRightOf o.precedence o.groupsRight with
  | true =>
    show _ ≤ 14
    omega
  | false =>
    show _ ≤ r.power
    rcases h.precedence?_cases with ⟨-, hp⟩ | ⟨o', hp, hpower, -⟩
    · omega
    · simp only [groupsRightOf, hp, Bool.or_eq_false_iff, decide_eq_false_iff_not,
        Bool.and_eq_false_iff, beq_eq_false_iff_ne, Bool.not_eq_false'] at hg
      obtain ⟨hle, hne⟩ := hg
      rw [hpower, Parser.rightFloor]
      split
      · omega
      · next hr =>
        rcases hne with hne | hne
        · omega
        · exact absurd hne hr

theorem Formed.ofBinary (hl : l.Formed N A False) (hr : r.Formed N A False) (o : BinaryOp) :
    (l.ofBinary (.binary o) r).Formed N A False :=
  .binary rfl o.spelled (hl.precedence_lt_hold o) (hr.rightFloor_le_power o) (hl.groupedIf _)
    (hr.groupedIf _)

theorem Formed.ofUnary (h : e.Formed N A False) (op : UnaryOp) :
    (Expr.ofUnary op.kind e).Formed N A False := by
  refine .unary (by cases op <;> rfl) op.spelled ?_ nofun (h.groupedIf _)
  rcases h.precedence?_cases with ⟨hnone, hp⟩ | ⟨o, hsome, -⟩
  · rw [hnone]
    exact hp
  · rw [hsome]
    show 12 ≤ 14
    decide

/-! Accesses, elements and calls. -/

theorem power_unsigned {t : Token} (h : (literal t).isSigned = false) : 14 ≤ (literal t).power := by
  simp only [isSigned, beq_eq_false_iff_ne] at h
  exact Nat.le_of_eq (if_neg h).symm

theorem Formed.receiver (h : e.Formed N A False) : e.receiver.Formed N A False := h.groupedIf _

theorem Formed.power_receiver (h : e.Formed N A False) : 13 ≤ e.receiver.power := by
  unfold Expr.receiver
  split
  · next l op r =>
    cases hop : op.kind.isAccess with
    | false => exact Nat.le_succ 13
    | true =>
      show 13 ≤ op.kind.power
      exact Nat.le_of_eq (TokenKind.power_of_isAccess hop).symm
  · exact Nat.le_succ 13
  · next hb hu =>
    cases hs : e.isSigned with
    | true => exact Nat.le_succ 13
    | false =>
      show 13 ≤ e.power
      cases h with
      | @literal t | @signed t => exact Nat.le_trans (by decide) (power_unsigned hs)
      | unary => exact absurd rfl (hu _ _ _)
      | binary | member | scope | dynamic => exact absurd rfl (hb _ _ _)
      | _ => simp [power]

theorem Formed.primary (h : e.Formed N A False) : e.primary.Formed N A False := h.groupedIf _

/-- A primary is no operation and no type without arguments. -/
theorem primary_cases (e : Expr) : 14 ≤ e.primary.power ∧ e.primary.endsBare = false := by
  have hgrouped : 14 ≤ (grouping e).power ∧ (grouping e).endsBare = false := ⟨Nat.le_refl 14, rfl⟩
  cases e with
  | literal t =>
    cases hs : (literal t).isSigned with
    | true =>
      rw [Expr.primary, hs]
      exact hgrouped
    | false =>
      rw [Expr.primary, hs]
      exact ⟨power_unsigned hs, rfl⟩
  | «variable» | grouping | array => exact ⟨Nat.le_refl 14, rfl⟩
  | _ => exact hgrouped

structure Reached (N : String → Prop) (A : Prop) (e : Expr) : Prop where
  formed : e.Formed N A False
  power : 13 ≤ e.power
  endsBare : e.endsBare = false

theorem Reached.name {text : String} (h : N text) : Reached N A (.name text) :=
  ⟨.name rfl h, Nat.le_succ 13, rfl⟩

theorem formed_this : Expr.this.Formed N A False := .this rfl (Keyword.spelled .this)

theorem Formed.reachedMember (h : e.Formed N A False) {t : Token}
    (ht : t.kind = .identifier ∨ t.kind.isProperty) (hs : t.Spelled) :
    Reached N A (e.ofAccess (.access .member) (.variable t)) :=
  ⟨.member rfl (AccessOp.spelled _) h.power_receiver ht hs h.receiver, Nat.le_refl 13, rfl⟩

theorem Formed.reachedName (h : e.Formed N A False) {member : String} (hm : IsName member) :
    Reached N A (e.ofMember member) :=
  h.reachedMember (.inl rfl) (Token.IsName.spelled ⟨rfl, hm⟩)

theorem Formed.reachedScope (h : e.Formed N A False) {name : String} (hn : IsName name) :
    Reached N A (e.ofAccess (.access .scope) (.name name)) :=
  ⟨.scope rfl (AccessOp.spelled _) h.power_receiver rfl (Token.IsName.spelled ⟨rfl, hn⟩) h.receiver,
    Nat.le_refl 13, rfl⟩

theorem Formed.reachedDynamic (hl : l.Formed N A False) (hr : r.Formed N A False) {op : AccessOp}
    (hop : op = .dynamicMember ∨ op = .dynamicScope) : Reached N A (l.ofAccess (.access op) r) := by
  have hright : l.ofAccess (.access op) r = operation l.receiver (.access op) r.primary := by
    rcases hop with rfl | rfl <;> rfl
  rw [hright]
  refine ⟨.dynamic ?_ (AccessOp.spelled op) hl.power_receiver (primary_cases r).1 hl.receiver
    hr.primary, Nat.le_refl 13, ?_⟩
  · rcases hop with rfl | rfl
    · exact .inl rfl
    · exact .inr rfl
  · show (true && r.primary.endsBare) = false
    rw [(primary_cases r).2]
    rfl

theorem Formed.reachedIndex (hl : l.Formed N A False) (hr : r.Formed N A False) :
    Reached N A (l.ofIndex r) :=
  ⟨.index hl.power_receiver hl.receiver hr, Nat.le_refl 13, rfl⟩

theorem Reached.ofCall (h : Reached N A e) {es : List Expr}
    (hlen : es.length ≤ ParseFault.maxArguments) (hes : ∀ e ∈ es, e.Formed N A False) :
    (e.ofCall es).Formed N A False :=
  .call h.power h.endsBare (fun _ => hlen) h.formed hes

end Expr

theorem Expr.Formed.ofReturn {N : String → Prop} {A : Prop} {e : Expr} (h : e.Formed N A False) :
    (Stmt.ofReturn e).Formed N A False := by
  unfold Stmt.ofReturn
  split
  · refine .return_ fun x hx => ?_
    split at hx
    · cases hx
    · cases hx
      exact h
  · refine .return_ fun x hx => ?_
    cases hx
    exact h

end Lss
