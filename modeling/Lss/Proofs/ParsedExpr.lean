import Lss.Proofs.Formed

/-!
# What parsers give: expressions

A parser over spelled tokens leaves spelled tokens, and what it gives is formed. Where it has no
complaint, calls keep to the number of arguments that can be passed.
-/
namespace Lss

abbrev AllSpelled (ts : List Token) : Prop := ∀ t ∈ ts, t.Spelled

namespace Reply

variable {α β : Type} {ss ts : List Token} {P : α → List Token → List Diagnostic → Prop}
  {Q : β → List Token → List Diagnostic → Prop}

def Obeys (P : α → List Token → List Diagnostic → Prop) : Reply α ts → Prop
  | .done a rest notes _ => AllSpelled rest ∧ P a rest notes
  | .gaveUp _ rest _ _ => AllSpelled rest

theorem Obeys.after {r : Reply β ts} {notes : List Diagnostic}
    (h : r.Obeys fun b rest more => Q b rest (notes ++ more)) : (r.after notes).Obeys Q := by
  cases r with
  | done b rest more hs => exact h
  | gaveUp moved rest more hs => exact h

theorem Obeys.start {r : Reply α ts}
    {f : (a : α) → (rest : List Token) → Shorter rest ts → Reply β ts} (h : r.Obeys P)
    (hf : ∀ a rest hs notes, AllSpelled rest → P a rest notes →
      (f a rest hs).Obeys fun b rest' more => Q b rest' (notes ++ more)) :
    (r.start f).Obeys Q := by
  cases r with
  | done a rest notes hs => exact (hf a rest hs notes h.1 h.2).after
  | gaveUp moved rest notes hs => exact h

theorem Obeys.next {r : Reply α ss} {hs : Shorter ss ts}
    {f : (a : α) → (rest : List Token) → Shorter rest ts → Reply β ts} (h : r.Obeys P)
    (hf : ∀ a rest hr notes, Shorter rest ss → AllSpelled rest → P a rest notes →
      (f a rest hr).Obeys fun b rest' more => Q b rest' (notes ++ more)) :
    (r.next hs f).Obeys Q := by
  cases r with
  | done a rest notes hr => exact (hf a rest _ notes hr h.1 h.2).after
  | gaveUp moved rest notes hr => exact h

theorem Obeys.last {r : Reply α ss} {hs : Shorter ss ts} (h : r.Obeys P) : (r.last hs).Obeys P := by
  cases r with
  | done a rest notes hr => exact h
  | gaveUp moved rest notes hr => exact h

theorem Obeys.imp {P' : α → List Token → List Diagnostic → Prop} {r : Reply α ts} (h : r.Obeys P)
    (himp : ∀ a rest notes, P a rest notes → P' a rest notes) : r.Obeys P' := by
  cases r with
  | done a rest notes hr => exact ⟨h.1, himp a rest notes h.2⟩
  | gaveUp moved rest notes hr => exact h

end Reply

namespace Parser

variable {fin : Token} {ts rest : List Token} {A : Prop}

theorem expect_obeys {kind : TokenKind} {context : String} (h : AllSpelled ts) :
    (expect kind context fin ts).Obeys fun t _ notes => t.kind = kind ∧ t.Spelled ∧ notes = [] := by
  unfold expect
  split
  · next t rest =>
    split
    · next hk =>
      exact ⟨fun s hs => h s (List.mem_cons_of_mem _ hs), hk, h t List.mem_cons_self, rfl⟩
    · exact h
  · exact h

theorem identifier_obeys {context : String} (h : AllSpelled ts) :
    (identifier context fin ts).Obeys fun t _ notes => t.IsName ∧ notes = [] := by
  unfold identifier
  split
  · next t rest =>
    split
    · next hk =>
      have ht := h t List.mem_cons_self
      rw [Token.Spelled, hk] at ht
      exact ⟨fun s hs => h s (List.mem_cons_of_mem _ hs), ⟨hk, ht⟩, rfl⟩
    · exact h
  · exact h

theorem memberName_obeys (h : AllSpelled ts) : (memberName fin ts).Obeys fun t _ notes =>
    (t.kind = .identifier ∨ t.kind.isProperty) ∧ t.Spelled ∧ notes = [] := by
  unfold memberName
  split
  · next t rest =>
    split
    · next hk =>
      simp only [Bool.or_eq_true, decide_eq_true_eq] at hk
      exact ⟨fun s hs => h s (List.mem_cons_of_mem _ hs), hk, h t List.mem_cons_self, rfl⟩
    · exact h
  · exact h

def Yields (A : Prop) (power : Nat) (e : Expr) (notes : List Diagnostic) : Prop :=
  (A → notes = []) → e.Formed IsName A True ∧ power ≤ e.power

/-- The same before tokens that are not the arguments of a construction at its end. -/
def YieldsTight (A : Prop) (power : Nat) (e : Expr) (rest : List Token)
    (notes : List Diagnostic) : Prop :=
  (A → notes = []) → e.Formed IsName A True ∧ power ≤ e.power ∧
    (e.endsBare → ∀ t ∈ rest.head?, t.kind ≠ .leftParen)

def YieldsAll (A : Prop) (close : TokenKind) (es : List Expr) (notes : List Diagnostic) : Prop :=
  (A → notes = []) → (∀ e ∈ es, e.Formed IsName A True) ∧
    (close = .rightParen → A → es.length ≤ ParseFault.maxArguments)

theorem Yields.mono {m n : Nat} {e : Expr} {notes : List Diagnostic} (h : Yields A n e notes)
    (hmn : m ≤ n) : Yields A m e notes :=
  fun hq => ⟨(h hq).1, Nat.le_trans hmn (h hq).2⟩

theorem YieldsTight.yields {n : Nat} {e : Expr} {notes : List Diagnostic}
    (h : YieldsTight A n e rest notes) : Yields A n e notes :=
  fun hq => ⟨(h hq).1, (h hq).2.1⟩

/-- No complaint in all is no complaint in a part. -/
theorem quiet_left {notes more : List Diagnostic} (h : A → notes ++ more = []) : A → notes = [] :=
  fun hA => (List.append_eq_nil_iff.mp (h hA)).1

theorem quiet_right {notes more : List Diagnostic} (h : A → notes ++ more = []) : A → more = [] :=
  fun hA => (List.append_eq_nil_iff.mp (h hA)).2

/-- A sign becomes part of a number, and a second one leaves the number without. -/
theorem applyUnary_formed {t : Token} {e : Expr} (hk : t.kind.isPrefix) (ht : t.Spelled)
    (he : e.Formed IsName A True) (hp : 12 ≤ e.power) :
    (applyUnary t e).Formed IsName A True ∧ 12 ≤ (applyUnary t e).power := by
  have plain (h : t.kind = .binary .sub → e.negated? = none) :
      (Expr.unary t e true).Formed IsName A True ∧ 12 ≤ (Expr.unary t e true).power :=
    ⟨.unary hk ht hp (fun _ => h) he, Nat.le_refl _⟩
  unfold applyUnary
  split
  · next t' =>
    have h12 (text : String) (s : Span) : 12 ≤ (Expr.literal ⟨t'.kind, text, s⟩).power := by
      simp only [Expr.power]
      split <;> decide
    split
    · next h =>
      refine ⟨?_, h12 _ _⟩
      cases he with
      | literal hl hs =>
        have htext := negateText_unsigned (hs.head_ne_minus (isMark_of_isLiteral hl))
        exact .signed h.2 (show (negateText t'.text).toList = '-' :: t'.text.toList by
          rw [htext, String.toList_ofList]) hs
      | @signed _ cs _ hcs hs =>
        refine .literal (isLiteral_of_number h.2) ?_
        rw [Token.Spelled, negateText_signed hcs, String.toList_ofList]
        exact hs
    · next h =>
      refine plain fun hsub => ?_
      simp only [Expr.negated?, ite_eq_right_iff, reduceCtorEq, imp_false]
      exact fun hn => h ⟨hsub, hn⟩
  · next hl =>
    refine plain fun _ => ?_
    unfold Expr.negated?
    split
    · next t' => exact absurd rfl (hl t')
    · rfl

/-! Each function of the parser, with the measure by which it ends. -/

theorem finishArguments_obeys {all : List Token} {close : TokenKind} {context : String}
    {acc : List Expr} {notes : List Diagnostic} {h : Shorter ts all} (hts : AllSpelled ts)
    (hacc : (A → notes = []) → ∀ e ∈ acc, e.Formed IsName A True) :
    (finishArguments fin close context acc notes ts h).Obeys fun x _ notes =>
      YieldsAll A close x.1 notes := by
  unfold finishArguments
  refine .after (.next (expect_obeys hts) ?_)
  rintro mark rest hr _ - hrest ⟨-, -, rfl⟩
  refine ⟨hrest, fun hq => ⟨?_, ?_⟩⟩
  · intro e he
    exact hacc (quiet_left (quiet_left hq)) e (List.mem_reverse.mp he)
  · rintro rfl hA
    have hexcess := quiet_right (quiet_left hq) hA
    simp only [decide_true, Bool.true_and, decide_eq_true_eq, ite_eq_right_iff, reduceCtorEq,
      imp_false, Nat.not_lt] at hexcess
    rwa [List.length_reverse]

/-- A construct behind `left`, where both have been read. -/
theorem YieldsTight.quiet {e e' : Expr} {rest' : List Token} {notes more : List Diagnostic}
    (he : YieldsTight A 13 e rest notes)
    (h : e.Formed IsName A True → 13 ≤ e.power →
      (e.endsBare → ∀ t ∈ rest.head?, t.kind ≠ .leftParen) → (A → more = []) →
      e'.Formed IsName A True ∧ 13 ≤ e'.power ∧
        (e'.endsBare → ∀ t ∈ rest'.head?, t.kind ≠ .leftParen)) :
    YieldsTight A 13 e' rest' (notes ++ more) := by
  intro hq
  obtain ⟨hf, hp, hb⟩ := he (quiet_left hq)
  exact h hf hp hb (quiet_right hq)

theorem YieldsTight.dynamic {e name : Expr} {t : Token} {rest' : List Token}
    {notes more : List Diagnostic} (he : YieldsTight A 13 e rest notes)
    (hop : t.kind = .access .dynamicMember ∨ t.kind = .access .dynamicScope) (ht : t.Spelled)
    (hn : YieldsTight A 14 name rest' more) :
    YieldsTight A 13 (.binary e t name) rest' (notes ++ more) := by
  refine he.quiet fun hf hp _ hq => ?_
  obtain ⟨hnf, hnp, hnb⟩ := hn hq
  have hacc : t.kind.isAccess = true ∧ t.kind.power = 13 := by
    rcases hop with h | h <;> rw [h] <;> exact ⟨rfl, rfl⟩
  refine ⟨.dynamic hop ht hp hnp hf hnf, Nat.le_of_eq hacc.2.symm, ?_⟩
  simpa [Expr.endsBare, hacc.1] using hnb

theorem AllSpelled.tail {t : Token} (h : AllSpelled (t :: ts)) : AllSpelled ts :=
  fun s hs => h s (List.mem_cons_of_mem _ hs)

mutual

theorem expression_obeys (fin : Token) (ts : List Token) (h : AllSpelled ts) :
    (expression fin ts).Obeys fun e _ notes => Yields A 0 e notes := by
  rw [expression]
  have hb := binary_obeys fin 1 ts h (by decide)
  cases hr : binary fin 1 ts with
  | done e rest notes hs =>
    rw [hr] at hb
    exact ⟨hb.1, hb.2.1.mono (Nat.zero_le _)⟩
  | gaveUp moved rest notes hs =>
    rw [hr] at hb
    exact hb
termination_by 8 * ts.length + 5
decreasing_by all_goals omega

theorem binary_obeys (fin : Token) (floor : Nat) (ts : List Token) (h : AllSpelled ts)
    (hfloor : floor ≤ 12) :
    (binary fin floor ts).Obeys fun e rest notes => Yields A floor e notes ∧ Below floor rest := by
  rw [binary]
  have hu := unary_obeys fin ts h
  split
  · next left rest notes hs heq =>
    rw [heq] at hu
    refine binaryTail_obeys fin floor left notes rest hs hu.1 (hu.2.mono hfloor) ?_
    intro hq t ht o ho
    rw [Expr.hold_of_power (hu.2 hq).2]
    exact o.precedence_lt
  · next heq =>
    rw [heq] at hu
    exact hu
termination_by 8 * ts.length + 4
decreasing_by all_goals omega

theorem binaryTail_obeys {all : List Token} (fin : Token) (floor : Nat) (left : Expr)
    (notes : List Diagnostic) : (ts : List Token) → (hs : Shorter ts all) → AllSpelled ts →
    Yields A floor left notes → ((A → notes = []) → Below left.hold ts) →
    (binaryTail fin floor left notes ts hs).Obeys fun e rest notes =>
      Yields A floor e notes ∧ Below floor rest
  | [], hs, h, hl, hb => by
    rw [binaryTail]
    exact ⟨h, hl, by rintro t ⟨⟩⟩
  | t :: rest, hs, h, hl, hb => by
    rw [binaryTail]
    split
    · next op hop =>
      split
      · next hlt =>
        refine ⟨h, hl, ?_⟩
        rintro _ ⟨⟩ o ho
        rw [hop] at ho
        cases ho
        exact hlt
      · next hge =>
        have hr := binary_obeys fin (rightFloor op) rest (AllSpelled.tail h)
          (Nat.le_of_lt op.rightFloor_lt)
        split
        · next right rest' more h' heq =>
          rw [heq] at hr
          obtain ⟨hrest, hright, hbelow⟩ := hr
          refine binaryTail_obeys fin floor _ _ rest' (h'.behind hs) hrest ?_ ?_
          · intro hq
            obtain ⟨hlf, -⟩ := hl (quiet_left hq)
            obtain ⟨hrf, hrp⟩ := hright (quiet_right hq)
            refine ⟨.binary hop (h t List.mem_cons_self) (hb (quiet_left hq) t rfl op hop) hrp hlf
              hrf, ?_⟩
            simp only [Expr.power, hop, TokenKind.power]
            omega
          · intro _
            simpa only [Expr.hold, hop, TokenKind.hold] using hbelow
        · next heq =>
          rw [heq] at hr
          exact hr
    · next hop =>
      refine ⟨h, hl, ?_⟩
      rintro _ ⟨⟩ o ho
      exact absurd ho (hop o)
termination_by ts => 8 * ts.length
decreasing_by all_goals (simp only [List.length_cons]; omega)

theorem unary_obeys (fin : Token) : (ts : List Token) → AllSpelled ts →
    (unary fin ts).Obeys fun e _ notes => Yields A 12 e notes
  | [], h => by
    rw [unary]
    exact (trailing_obeys fin [] h).imp fun e _ notes he => he.mono (by decide)
  | t :: rest, h => by
    have signed (hk : t.kind.isPrefix) : ((unary fin rest).next (.tail t rest) fun e rest' hr =>
        .done (applyUnary t e) rest' [] hr).Obeys fun e _ notes => Yields A 12 e notes := by
      refine .next (unary_obeys fin rest (AllSpelled.tail h)) fun e rest' hr notes _ hrest he => ?_
      refine ⟨hrest, fun hq => ?_⟩
      obtain ⟨hf, hp⟩ := he (quiet_left hq)
      exact applyUnary_formed hk (h t List.mem_cons_self) hf hp
    rw [unary]
    split
    · next hk => exact signed (by simp [hk, TokenKind.isPrefix])
    · next hk => exact signed (by simp [hk, TokenKind.isPrefix])
    · next hk => exact signed (by simp [hk, TokenKind.isPrefix])
    · exact (trailing_obeys fin (t :: rest) h).imp fun e _ notes he => he.mono (by decide)
termination_by ts => 8 * ts.length + 3
decreasing_by all_goals (simp only [List.length_cons] at *; omega)

theorem trailing_obeys (fin : Token) (ts : List Token) (h : AllSpelled ts) :
    (trailing fin ts).Obeys fun e _ notes => Yields A 13 e notes := by
  rw [trailing]
  have hp := primary_obeys fin ts h
  split
  · next e rest notes hs heq =>
    rw [heq] at hp
    refine trailingTail_obeys fin e notes rest hs hp.1 fun hq => ?_
    obtain ⟨hf, hpower, hb⟩ := hp.2 hq
    exact ⟨hf, by omega, hb⟩
  · next heq =>
    rw [heq] at hp
    exact hp
termination_by 8 * ts.length + 2
decreasing_by all_goals omega

theorem trailingTail_obeys {all : List Token} (fin : Token) (e : Expr) (notes : List Diagnostic) :
    (ts : List Token) → (hs : Shorter ts all) → AllSpelled ts → YieldsTight A 13 e ts notes →
    (trailingTail fin e notes ts hs).Obeys fun e _ notes => Yields A 13 e notes
  | [], hs, h, he => by
    rw [trailingTail]
    exact ⟨h, he.yields⟩
  | t :: rest, hs, h, he => by
    rw [trailingTail]
    have ht := h t List.mem_cons_self
    have hrest := AllSpelled.tail h
    split
    · next hop =>
      have hm : (memberName fin rest).Obeys _ := memberName_obeys hrest
      split
      · next name rest' more h' heq =>
        rw [heq] at hm
        obtain ⟨hrest', hname, hspelled, rfl⟩ := hm
        refine trailingTail_obeys fin _ _ rest' (h'.behind hs) hrest' (he.quiet fun hf hp _ _ => ?_)
        exact ⟨.member hop ht hp hname hspelled hf, by simp [Expr.power, hop, TokenKind.power],
          by simp [Expr.endsBare]⟩
      · next heq =>
        rw [heq] at hm
        exact hm
    · next hop =>
      have hm : (identifier "after '::'" fin rest).Obeys _ := identifier_obeys hrest
      split
      · next name rest' more h' heq =>
        rw [heq] at hm
        obtain ⟨hrest', hname, rfl⟩ := hm
        refine trailingTail_obeys fin _ _ rest' (h'.behind hs) hrest' (he.quiet fun hf hp _ _ => ?_)
        exact ⟨.scope hop ht hp hname.1 hname.spelled hf,
          by simp [Expr.power, hop, TokenKind.power], by simp [Expr.endsBare]⟩
      · next heq =>
        rw [heq] at hm
        exact hm
    · next hop =>
      have hm := primary_obeys fin rest hrest
      split
      · next name rest' more h' heq =>
        rw [heq] at hm
        refine trailingTail_obeys fin _ _ rest' (h'.behind hs) hm.1 ?_
        exact he.dynamic (.inl hop) ht hm.2
      · next heq =>
        rw [heq] at hm
        exact hm
    · next hop =>
      have hm := primary_obeys fin rest hrest
      split
      · next name rest' more h' heq =>
        rw [heq] at hm
        refine trailingTail_obeys fin _ _ rest' (h'.behind hs) hm.1 ?_
        exact he.dynamic (.inr hop) ht hm.2
      · next heq =>
        rw [heq] at hm
        exact hm
    · next hop =>
      have hm := closed_obeys fin .rightBracket "after index" rest hrest
      split
      · next i close rest' more h' heq =>
        rw [heq] at hm
        refine trailingTail_obeys fin _ _ rest' (h'.behind hs) hm.1 (he.quiet fun hf hp _ hq => ?_)
        exact ⟨.index hp hf (hm.2 hq).1, Nat.le_refl _, by simp [Expr.endsBare]⟩
      · next heq =>
        rw [heq] at hm
        exact hm
    · next hop =>
      have hm := arguments_obeys fin .rightParen "after arguments" rest hrest
      split
      · next es close rest' more h' heq =>
        rw [heq] at hm
        refine trailingTail_obeys fin _ _ rest' (h'.behind hs) hm.1 (he.quiet fun hf hp hb hq => ?_)
        obtain ⟨hes, hfew⟩ := hm.2 hq
        refine ⟨.call hp ?_ (hfew rfl) hf hes, Nat.le_refl _, by simp [Expr.endsBare]⟩
        exact Bool.eq_false_iff.mpr fun hbare => hb hbare t rfl hop
      · next heq =>
        rw [heq] at hm
        exact hm
    · exact ⟨h, he.yields⟩
termination_by ts => 8 * ts.length
decreasing_by all_goals (simp only [List.length_cons]; omega)

theorem primary_obeys (fin : Token) : (ts : List Token) → AllSpelled ts →
    (primary fin ts).Obeys (YieldsTight A 14)
  | [], h => by
    rw [primary]
    exact h
  | t :: rest, h => by
    rw [primary]
    have ht := h t List.mem_cons_self
    have hrest := AllSpelled.tail h
    split
    · next hk =>
      rw [Token.Spelled, hk] at ht
      exact ⟨hrest, fun _ => ⟨.name hk ht, Nat.le_refl _, by simp [Expr.endsBare]⟩⟩
    · next hk => exact ⟨hrest, fun _ => ⟨.this hk ht, Nat.le_refl _, by simp [Expr.endsBare]⟩⟩
    · refine .next (closed_obeys fin .rightParen _ rest hrest) ?_
      intro x rest' hr notes _ hrest' hx
      refine ⟨hrest', fun hq => ?_⟩
      exact ⟨.grouping (hx (quiet_left hq)).1, Nat.le_refl _, by simp [Expr.endsBare]⟩
    · refine .next (arguments_obeys fin .rightBracket _ rest hrest) ?_
      intro x rest' hr notes _ hrest' hx
      refine ⟨hrest', fun hq => ?_⟩
      exact ⟨.array (hx (quiet_left hq)).1, Nat.le_refl _, by simp [Expr.endsBare]⟩
    · exact .last (construction_obeys fin t rest hrest)
    · split
      · next hk =>
        refine ⟨hrest, fun _ => ⟨.literal hk ht, ?_, by simp [Expr.endsBare]⟩⟩
        simp [Expr.power, ht.head_ne_minus (isMark_of_isLiteral hk)]
      · exact h
termination_by ts => 8 * ts.length + 1
decreasing_by all_goals (simp only [List.length_cons]; omega)

theorem construction_obeys (fin keyword : Token) (ts : List Token) (h : AllSpelled ts) :
    (construction fin keyword ts).Obeys (YieldsTight A 14) := by
  rw [construction]
  refine .start (identifier_obeys h) ?_
  rintro type rest hr _ hrest ⟨hname, rfl⟩
  split
  · refine ⟨hrest, fun _ => ⟨.new hname.1 hname.spelled, Nat.le_refl _, ?_⟩⟩
    rintro _ t ⟨⟩
  · next t rest hr =>
    have _lt : Shorter rest ts := hr.of_cons
    split
    · refine .next (arguments_obeys fin .rightParen _ rest (AllSpelled.tail hrest)) ?_
      intro x rest' _ notes _ hrest' hx
      refine ⟨hrest', fun hq => ?_⟩
      obtain ⟨hes, hfew⟩ := hx (quiet_left hq)
      exact ⟨.construct hname.1 hname.spelled (hfew rfl) hes, Nat.le_refl _,
        by simp [Expr.endsBare]⟩
    · next hk =>
      refine ⟨hrest, fun _ => ⟨.new hname.1 hname.spelled, Nat.le_refl _, ?_⟩⟩
      rintro _ _ ⟨⟩
      exact hk
termination_by 8 * ts.length + 7
decreasing_by all_goals omega

theorem closed_obeys (fin : Token) (close : TokenKind) (context : String) (ts : List Token)
    (h : AllSpelled ts) :
    (closed fin close context ts).Obeys fun x _ notes => Yields A 0 x.1 notes := by
  rw [closed]
  refine .start (expression_obeys fin ts h) fun e rest hr notes hrest he => ?_
  refine .next (expect_obeys hrest) ?_
  rintro mark rest' _ _ - hrest' -
  exact ⟨hrest', fun hq => he (quiet_left hq)⟩
termination_by 8 * ts.length + 6
decreasing_by all_goals omega

theorem arguments_obeys (fin : Token) (close : TokenKind) (context : String) (ts : List Token)
    (h : AllSpelled ts) :
    (arguments fin close context ts).Obeys fun x _ notes => YieldsAll A close x.1 notes := by
  rw [arguments]
  split
  · refine .start (expect_obeys h) ?_
    rintro mark rest' _ _ hrest' -
    exact ⟨hrest', fun _ => ⟨by simp, fun _ _ => Nat.zero_le _⟩⟩
  · have he := expression_obeys fin ts h
    split
    · next e rest notes hs heq =>
      rw [heq] at he
      refine argumentsTail_obeys fin close context [e] notes rest hs he.1 fun hq e' he' => ?_
      rw [List.mem_singleton.mp he']
      exact (he.2 hq).1
    · next heq =>
      rw [heq] at he
      exact he
termination_by 8 * ts.length + 6
decreasing_by all_goals omega

theorem argumentsTail_obeys {all : List Token} (fin : Token) (close : TokenKind) (context : String)
    (acc : List Expr) (notes : List Diagnostic) : (ts : List Token) → (hs : Shorter ts all) →
    AllSpelled ts → ((A → notes = []) → ∀ e ∈ acc, e.Formed IsName A True) →
    (argumentsTail fin close context acc notes ts hs).Obeys fun x _ notes =>
      YieldsAll A close x.1 notes
  | [], hs, h, hacc => by
    rw [argumentsTail]
    exact finishArguments_obeys h hacc
  | t :: rest, hs, h, hacc => by
    rw [argumentsTail]
    split
    · have he := expression_obeys fin rest (AllSpelled.tail h)
      split
      · next e rest' more h' heq =>
        rw [heq] at he
        refine argumentsTail_obeys fin close context (e :: acc) _ rest' (h'.behind hs) he.1 ?_
        intro hq e' he'
        cases he' with
        | head => exact (he.2 (quiet_right hq)).1
        | tail _ he' => exact hacc (quiet_left hq) e' he'
      · next heq =>
        rw [heq] at he
        exact he
    · exact finishArguments_obeys h hacc
termination_by ts => 8 * ts.length
decreasing_by all_goals (simp only [List.length_cons]; omega)

end

end Parser

end Lss
