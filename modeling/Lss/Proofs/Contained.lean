import Lss.Proofs.Braces

/-!
# Every parser keeps to its braces

One lemma for each parser of expressions and statements, whether it comes to a result or gives up.
-/
namespace Lss

namespace Reply

variable {α β : Type} {fin : Token} {ss us ts : List Token}

/-- A reply to `ts` that was read from `ss` on keeps to the braces; giving up without having moved
leaves everything. -/
def Contained (fin : Token) (ss : List Token) : Reply α ts → Prop
  | .done _ rest notes _ => Parser.Passes fin ss rest notes
  | .gaveUp moved rest notes _ => Parser.Passes fin ss rest notes ∧ (moved = false → rest = ts)

theorem Contained.after {r : Reply β ts} {mid : List Token} {notes : List Diagnostic}
    (hp : Parser.Passes fin ss mid notes) (h : r.Contained fin mid) :
    (r.after notes).Contained fin ss := by
  cases r with
  | done b rest more hs => exact hp.trans h
  | gaveUp moved rest more hs => exact ⟨hp.trans h.1, h.2⟩

theorem Contained.start {r : Reply α ts}
    {f : (a : α) → (rest : List Token) → Shorter rest ts → Reply β ts} (h : r.Contained fin ts)
    (hf : ∀ a rest hs, (f a rest hs).Contained fin rest) : (r.start f).Contained fin ts := by
  cases r with
  | done a rest notes hs => exact .after h (hf a rest hs)
  | gaveUp moved rest notes hs => exact h

theorem Contained.next {r : Reply α us} {hs : Shorter us ts}
    {f : (a : α) → (rest : List Token) → Shorter rest ts → Reply β ts} (h : r.Contained fin us)
    (hf : ∀ a rest hr, (f a rest hr).Contained fin rest) : (r.next hs f).Contained fin us := by
  cases r with
  | done a rest notes hr => exact .after h (hf a rest _)
  | gaveUp moved rest notes hr => exact ⟨h.1, nofun⟩

theorem Contained.last {r : Reply α us} {hs : Shorter us ts} (h : r.Contained fin us) :
    (r.last hs).Contained fin us := by
  cases r with
  | done a rest notes hr => exact h
  | gaveUp moved rest notes hr => exact ⟨h.1, nofun⟩

theorem Contained.done {a : α} {rest : List Token} {h : Shorter rest ts} :
    (Reply.done a rest [] h).Contained fin rest :=
  .refl

theorem Contained.fail {f : ParseFault} : (Reply.fail f fin ts : Reply α ts).Contained fin ts :=
  ⟨.fail, fun _ => rfl⟩

/-- Behind a token that is no brace. -/
theorem Contained.cons {r : Reply α ts} {t : Token} (ht : t.kind.isBrace = false)
    (h : r.Contained fin ss) : r.Contained fin (t :: ss) := by
  cases r with
  | done a rest notes hr => exact Parser.Passes.cons ht h
  | gaveUp moved rest notes hr => exact ⟨h.1.cons ht, h.2⟩

end Reply

namespace Parser

variable {fin : Token} {ts rest : List Token}

theorem expect_contained {kind : TokenKind} {context : String} (hk : kind.isBrace = false) :
    (expect kind context fin ts).Contained fin ts := by
  unfold expect
  split
  · split
    · next h => exact .cons (by rw [h, hk]) .done
    · exact .fail
  · exact .fail

theorem identifier_contained {context : String} :
    (identifier context fin ts).Contained fin ts := by
  unfold identifier
  split
  · split
    · next h => exact .cons (by rw [h]; rfl) .done
    · exact .fail
  · exact .fail

theorem memberName_contained : (memberName fin ts).Contained fin ts := by
  unfold memberName
  split
  · next t rest =>
    split
    · next h =>
      refine .cons ?_ .done
      simp only [Bool.or_eq_true, decide_eq_true_eq] at h
      rcases h with h | h
      · rw [h]
        rfl
      · cases hk : t.kind <;> rw [hk] at h <;> first | rfl | cases h
    · exact .fail
  · exact .fail

theorem finishArguments_contained {all : List Token} {close : TokenKind} {context : String}
    {acc : List Expr} {notes : List Diagnostic} {h : Shorter ts all} {ss : List Token}
    (hclose : close.isBrace = false) (hp : Passes fin ss ts notes) :
    (finishArguments fin close context acc notes ts h).Contained fin ss := by
  unfold finishArguments
  apply Reply.Contained.after _ (.next (expect_contained hclose) fun _ _ _ => .done)
  split
  · exact hp.trans .fail
  · simpa using hp

theorem isBrace_of_isLiteral {kind : TokenKind} (h : isLiteral kind) : kind.isBrace = false := by
  cases kind <;> first | rfl | cases h

/-! Expressions. -/

mutual

theorem expression_contained (fin : Token) (ts : List Token) :
    (expression fin ts).Contained fin ts := by
  rw [expression]
  exact binary_contained fin 1 ts
termination_by 8 * ts.length + 5
decreasing_by all_goals omega

theorem binary_contained (fin : Token) (floor : Nat) (ts : List Token) :
    (binary fin floor ts).Contained fin ts := by
  rw [binary]
  have hu := unary_contained fin ts
  split
  · next heq =>
    rw [heq] at hu
    exact binaryTail_contained fin floor _ _ _ _ hu
  · next heq =>
    rw [heq] at hu
    exact hu
termination_by 8 * ts.length + 4
decreasing_by all_goals omega

theorem binaryTail_contained {all ss : List Token} (fin : Token) (floor : Nat) (left : Expr)
    (notes : List Diagnostic) : (ts : List Token) → (hs : Shorter ts all) →
    Passes fin ss ts notes → (binaryTail fin floor left notes ts hs).Contained fin ss
  | [], hs, hp => by
    rw [binaryTail]
    exact hp
  | t :: rest, hs, hp => by
    rw [binaryTail]
    split
    · next op hop =>
      have ht : t.kind.isBrace = false := by rw [hop]; rfl
      split
      · exact hp
      · have hr := binary_contained fin (rightFloor op) rest
        split
        · next rest' more h' heq =>
          rw [heq] at hr
          exact binaryTail_contained fin floor _ _ rest' (h'.behind hs)
            (hp.trans (hr.cons ht))
        · next heq =>
          rw [heq] at hr
          exact ⟨hp.trans (hr.1.cons ht), nofun⟩
    · exact hp
termination_by ts => 8 * ts.length
decreasing_by all_goals (simp only [List.length_cons]; omega)

theorem unary_contained (fin : Token) : (ts : List Token) → (unary fin ts).Contained fin ts
  | [] => by
    rw [unary]
    exact trailing_contained fin []
  | t :: rest => by
    have signed (hk : t.kind.isBrace = false) : ((unary fin rest).next (.tail t rest)
        fun e rest' hr => .done (applyUnary t e) rest' [] hr).Contained fin (t :: rest) :=
      .cons hk (.next (unary_contained fin rest) fun _ _ _ => .done)
    rw [unary]
    split
    · next hk => exact signed (by rw [hk]; rfl)
    · next hk => exact signed (by rw [hk]; rfl)
    · next hk => exact signed (by rw [hk]; rfl)
    · exact trailing_contained fin (t :: rest)
termination_by ts => 8 * ts.length + 3
decreasing_by all_goals (simp only [List.length_cons] at *; omega)

theorem trailing_contained (fin : Token) (ts : List Token) :
    (trailing fin ts).Contained fin ts := by
  rw [trailing]
  have hp := primary_contained fin ts
  split
  · next heq =>
    rw [heq] at hp
    exact trailingTail_contained fin _ _ _ _ hp
  · next heq =>
    rw [heq] at hp
    exact hp
termination_by 8 * ts.length + 2
decreasing_by all_goals omega

theorem trailingTail_contained {all ss : List Token} (fin : Token) (e : Expr)
    (notes : List Diagnostic) : (ts : List Token) → (hs : Shorter ts all) →
    Passes fin ss ts notes → (trailingTail fin e notes ts hs).Contained fin ss
  | [], hs, hp => by
    rw [trailingTail]
    exact hp
  | t :: rest, hs, hp => by
    rw [trailingTail]
    split
    · next hop =>
      have ht : t.kind.isBrace = false := by rw [hop]; rfl
      have hm : (memberName fin rest).Contained fin rest := memberName_contained
      split
      · next rest' more h' heq =>
        rw [heq] at hm
        exact trailingTail_contained fin _ _ rest' (h'.behind hs) (hp.trans (hm.cons ht))
      · next heq =>
        rw [heq] at hm
        exact ⟨hp.trans (hm.1.cons ht), nofun⟩
    · next hop =>
      have ht : t.kind.isBrace = false := by rw [hop]; rfl
      have hm : (identifier "after '::'" fin rest).Contained fin rest := identifier_contained
      split
      · next rest' more h' heq =>
        rw [heq] at hm
        exact trailingTail_contained fin _ _ rest' (h'.behind hs) (hp.trans (hm.cons ht))
      · next heq =>
        rw [heq] at hm
        exact ⟨hp.trans (hm.1.cons ht), nofun⟩
    · next hop =>
      have ht : t.kind.isBrace = false := by rw [hop]; rfl
      have hm := primary_contained fin rest
      split
      · next rest' more h' heq =>
        rw [heq] at hm
        exact trailingTail_contained fin _ _ rest' (h'.behind hs) (hp.trans (hm.cons ht))
      · next heq =>
        rw [heq] at hm
        exact ⟨hp.trans (hm.1.cons ht), nofun⟩
    · next hop =>
      have ht : t.kind.isBrace = false := by rw [hop]; rfl
      have hm := primary_contained fin rest
      split
      · next rest' more h' heq =>
        rw [heq] at hm
        exact trailingTail_contained fin _ _ rest' (h'.behind hs) (hp.trans (hm.cons ht))
      · next heq =>
        rw [heq] at hm
        exact ⟨hp.trans (hm.1.cons ht), nofun⟩
    · next hop =>
      have ht : t.kind.isBrace = false := by rw [hop]; rfl
      have hm := closed_contained fin .rightBracket "after index" rest rfl
      split
      · next rest' more h' heq =>
        rw [heq] at hm
        exact trailingTail_contained fin _ _ rest' (h'.behind hs) (hp.trans (hm.cons ht))
      · next heq =>
        rw [heq] at hm
        exact ⟨hp.trans (hm.1.cons ht), nofun⟩
    · next hop =>
      have ht : t.kind.isBrace = false := by rw [hop]; rfl
      have hm := arguments_contained fin .rightParen "after arguments" rest rfl
      split
      · next rest' more h' heq =>
        rw [heq] at hm
        exact trailingTail_contained fin _ _ rest' (h'.behind hs) (hp.trans (hm.cons ht))
      · next heq =>
        rw [heq] at hm
        exact ⟨hp.trans (hm.1.cons ht), nofun⟩
    · exact hp
termination_by ts => 8 * ts.length
decreasing_by all_goals (simp only [List.length_cons]; omega)

theorem primary_contained (fin : Token) : (ts : List Token) → (primary fin ts).Contained fin ts
  | [] => by
    rw [primary]
    exact .fail
  | t :: rest => by
    rw [primary]
    split
    · next hk => exact .cons (by rw [hk]; rfl) .done
    · next hk => exact .cons (by rw [hk]; rfl) .done
    · next hk =>
      refine .cons (by rw [hk]; rfl) (.next (closed_contained fin .rightParen _ rest rfl) ?_)
      exact fun _ _ _ => .done
    · next hk =>
      refine .cons (by rw [hk]; rfl) (.next (arguments_contained fin .rightBracket _ rest rfl) ?_)
      exact fun _ _ _ => .done
    · next hk => exact .cons (by rw [hk]; rfl) (.last (construction_contained fin t rest))
    · split
      · next hk => exact .cons (isBrace_of_isLiteral hk) .done
      · exact .fail
termination_by ts => 8 * ts.length + 1
decreasing_by all_goals (simp only [List.length_cons]; omega)

theorem construction_contained (fin keyword : Token) (ts : List Token) :
    (construction fin keyword ts).Contained fin ts := by
  rw [construction]
  apply Reply.Contained.start identifier_contained
  intro type rest hr
  split
  · exact .done
  · next t rest hr =>
    have _lt : Shorter rest ts := hr.of_cons
    split
    · next hk =>
      refine .cons (by rw [hk]; rfl) (.next (arguments_contained fin .rightParen _ rest rfl) ?_)
      exact fun _ _ _ => .done
    · exact .done
termination_by 8 * ts.length + 7
decreasing_by all_goals omega

theorem closed_contained (fin : Token) (close : TokenKind) (context : String) (ts : List Token)
    (hclose : close.isBrace = false) : (closed fin close context ts).Contained fin ts := by
  rw [closed]
  apply Reply.Contained.start (expression_contained fin ts)
  intro e rest hr
  exact .next (expect_contained hclose) fun _ _ _ => .done
termination_by 8 * ts.length + 6
decreasing_by all_goals omega

theorem arguments_contained (fin : Token) (close : TokenKind) (context : String)
    (ts : List Token) (hclose : close.isBrace = false) :
    (arguments fin close context ts).Contained fin ts := by
  rw [arguments]
  split
  · exact .start (expect_contained hclose) fun _ _ _ => .done
  · have he := expression_contained fin ts
    split
    · next heq =>
      rw [heq] at he
      exact argumentsTail_contained fin close context _ _ _ _ hclose he
    · next heq =>
      rw [heq] at he
      exact he
termination_by 8 * ts.length + 6
decreasing_by all_goals omega

theorem argumentsTail_contained {all ss : List Token} (fin : Token) (close : TokenKind)
    (context : String) (acc : List Expr) (notes : List Diagnostic) : (ts : List Token) →
    (hs : Shorter ts all) → close.isBrace = false → Passes fin ss ts notes →
    (argumentsTail fin close context acc notes ts hs).Contained fin ss
  | [], hs, hclose, hp => by
    rw [argumentsTail]
    exact finishArguments_contained hclose hp
  | t :: rest, hs, hclose, hp => by
    rw [argumentsTail]
    split
    · next hcomma =>
      have ht : t.kind.isBrace = false := by rw [hcomma]; rfl
      have he := expression_contained fin rest
      split
      · next rest' more h' heq =>
        rw [heq] at he
        exact argumentsTail_contained fin close context _ _ rest' (h'.behind hs) hclose
          (hp.trans (he.cons ht))
      · next heq =>
        rw [heq] at he
        exact ⟨hp.trans (he.1.cons ht), nofun⟩
    · exact finishArguments_contained hclose hp
termination_by ts => 8 * ts.length
decreasing_by all_goals (simp only [List.length_cons]; omega)

end

/-! Statements. -/

theorem varStatement_contained : (varStatement fin ts).Contained fin ts := by
  unfold varStatement
  apply Reply.Contained.start identifier_contained
  intro name rest hr
  have finish (init : Option Expr) (rest' : List Token) (hr' : Shorter rest' ts) :
      ((expect .semicolon "after variable declaration" fin rest').next hr' fun _ rest hr =>
        Reply.done (Stmt.var name init) rest [] hr).Contained fin rest' :=
    .next (expect_contained rfl) fun _ _ _ => .done
  simp only
  split
  · exact finish none [] _
  · next t rest hr =>
    split
    · next heq =>
      refine .cons (by rw [heq]; rfl) (.next (expression_contained fin rest) ?_)
      exact fun e rest' hr' => finish (some e) rest' hr'
    · exact finish none (t :: rest) _

theorem returnStatement_contained {keyword : Token} :
    (returnStatement fin keyword ts).Contained fin ts := by
  unfold returnStatement
  split
  · exact .start (expect_contained rfl) fun _ _ _ => .done
  · apply Reply.Contained.start (expression_contained fin ts)
    intro e rest hr
    exact .next (expect_contained rfl) fun _ _ _ => .done

theorem expressionStatement_contained : (expressionStatement fin ts).Contained fin ts := by
  unfold expressionStatement
  apply Reply.Contained.start (expression_contained fin ts)
  intro e rest hr
  have finish (rest' : List Token) (hr' : Shorter rest' ts) :
      ((expect .semicolon "after expression" fin rest').next hr' fun _ rest hr =>
        Reply.done (Stmt.expr e) rest [] hr).Contained fin rest' :=
    .next (expect_contained rfl) fun _ _ _ => .done
  simp only
  split
  · exact finish [] _
  · next t rest hr =>
    split
    · next heq =>
      refine .cons (by rw [heq]; rfl) (.next (expression_contained fin rest) ?_)
      exact fun v rest' hr' => .next (expect_contained rfl) fun _ _ _ => .done
    · exact finish (t :: rest) _

theorem parenthesized_contained {opening closing : String} :
    (parenthesized opening closing fin ts).Contained fin ts := by
  unfold parenthesized
  apply Reply.Contained.start (expect_contained rfl)
  intro left rest hr
  exact .next (closed_contained fin .rightParen closing rest rfl) fun _ _ _ => .done

theorem iteration_contained : (iteration fin ts).Contained fin ts := by
  unfold iteration
  apply Reply.Contained.start (expect_contained rfl)
  intro left rest hr
  apply Reply.Contained.next identifier_contained
  intro x rest hr
  apply Reply.Contained.next (expect_contained rfl)
  intro in_ rest hr
  exact .next (closed_contained fin .rightParen _ rest rfl) fun _ _ _ => .done

theorem repetition_contained : (repetition fin ts).Contained fin ts := by
  unfold repetition
  apply Reply.Contained.start (expect_contained rfl)
  intro while_ rest hr
  apply Reply.Contained.next parenthesized_contained
  intro c rest hr
  exact .next (expect_contained rfl) fun _ _ _ => .done

def Ends (fin : Token) (ss : List Token) {α : Type} {ts : List Token} : Reply α ts → Prop
  | .done _ rest notes _ => Closes fin ss rest notes
  | .gaveUp _ _ _ _ => False

mutual

theorem statement_contained (fin : Token) : (ts : List Token) →
    (statement fin ts).Contained fin ts
  | [] => by
    rw [statement]
    exact expressionStatement_contained
  | t :: rest => by
    have misplaced (hk : t.kind.isBrace = false) : (Reply.gaveUp true rest
        [(ParseFault.misplacedDeclaration t.kind).at_ t] (Shorter.moved_tail t rest) :
        Reply Stmt (t :: rest)).Contained fin (t :: rest) := by
      refine ⟨⟨[t], 0, rfl, ?_, .inl rfl, located_at (by simp)⟩, nofun⟩
      rw [braceDepth_plain hk, braceDepth_nil]
    rw [statement]
    split
    · exact .start (block_contained fin (t :: rest)) fun _ _ _ => .done
    · next hk => exact .cons (by rw [hk]; rfl) (.last varStatement_contained)
    · next hk => exact .cons (by rw [hk]; rfl) (.last returnStatement_contained)
    · next hk => exact .cons (by rw [hk]; rfl) (.last (ifStatement_contained fin t rest))
    · next hk => exact .cons (by rw [hk]; rfl) (.last (whileStatement_contained fin rest))
    · next hk => exact .cons (by rw [hk]; rfl) (.last (doStatement_contained fin rest))
    · next hk => exact .cons (by rw [hk]; rfl) (.last (foreachStatement_contained fin rest))
    · next hk => exact misplaced (by rw [hk]; rfl)
    · next hk => exact misplaced (by rw [hk]; rfl)
    · next hk => exact misplaced (by rw [hk]; rfl)
    · next hk => exact misplaced (by rw [hk]; rfl)
    · exact expressionStatement_contained
termination_by ts => 4 * ts.length + 1
decreasing_by all_goals (simp only [List.length_cons]; omega)

theorem ifStatement_contained (fin keyword : Token) (ts : List Token) :
    (ifStatement fin keyword ts).Contained fin ts := by
  rw [ifStatement]
  apply Reply.Contained.start parenthesized_contained
  intro c rest hr
  apply Reply.Contained.next (statement_contained fin rest)
  intro body rest' hr'
  split
  · exact .done
  · next t rest'' hr'' =>
    have _lt : Shorter rest'' ts := hr''.of_cons
    split
    · next helse =>
      refine .cons (by rw [helse]; rfl) (.next (statement_contained fin rest'') ?_)
      exact fun _ _ _ => .done
    · exact .done
termination_by 4 * ts.length + 2
decreasing_by all_goals omega

theorem whileStatement_contained (fin : Token) (ts : List Token) :
    (whileStatement fin ts).Contained fin ts := by
  rw [whileStatement]
  apply Reply.Contained.start parenthesized_contained
  intro c rest hr
  exact .next (statement_contained fin rest) fun _ _ _ => .done
termination_by 4 * ts.length + 2
decreasing_by all_goals omega

theorem doStatement_contained (fin : Token) (ts : List Token) :
    (doStatement fin ts).Contained fin ts := by
  rw [doStatement]
  apply Reply.Contained.start (statement_contained fin ts)
  intro body rest hr
  exact .next repetition_contained fun _ _ _ => .done
termination_by 4 * ts.length + 2
decreasing_by all_goals omega

theorem foreachStatement_contained (fin : Token) (ts : List Token) :
    (foreachStatement fin ts).Contained fin ts := by
  rw [foreachStatement]
  apply Reply.Contained.start iteration_contained
  intro head rest hr
  exact .next (statement_contained fin rest) fun _ _ _ => .done
termination_by 4 * ts.length + 2
decreasing_by all_goals omega

theorem block_contained (fin : Token) (ts : List Token) : (block fin ts).Contained fin ts := by
  rw [block]
  cases ts with
  | nil => exact .fail
  | cons t rest =>
    by_cases ht : t.kind = .leftBrace
    · have hb := statements_ends fin t [] [] rest (.tail t rest) .refl
      rw [expect, if_pos ht]
      change ((statements fin t [] [] rest (.tail t rest)).after []).Contained fin (t :: rest)
      cases hr : statements fin t [] [] rest (.tail t rest) with
      | done b rest' notes hs =>
        rw [hr] at hb
        exact Closes.passes ht hb
      | gaveUp moved rest' notes hs =>
        rw [hr] at hb
        exact hb.elim
    · rw [expect, if_neg ht]
      exact .fail
termination_by 4 * ts.length
decreasing_by all_goals (simp only [List.length_cons]; omega)

theorem statements_ends {all ss : List Token} (fin brace : Token) (acc : List Stmt)
    (notes : List Diagnostic) : (ts : List Token) → (hs : Shorter ts all) →
    Passes fin ss ts notes → Ends fin ss (statements fin brace acc notes ts hs)
  | [], hs, hp => by
    rw [statements]
    exact (hp.subset fun n hn => List.mem_reverse.mp hn).ends
  | t :: rest, hs, hp => by
    rw [statements]
    split
    · next hk => exact (hp.subset fun n hn => List.mem_reverse.mp hn).closes hk
    · next hk =>
      have hstmt := statement_contained fin (t :: rest)
      split
      · next s rest' more h' heq =>
        rw [heq] at hstmt
        have _lt : rest'.length ≤ rest.length := Nat.le_of_lt_succ h'
        apply statements_ends fin brace (s :: acc) _ rest' (h'.within hs)
        apply (hp.trans hstmt).subset
        intro n hn
        simpa [or_comm] using hn
      · next moved rest' more h' heq =>
        rw [heq] at hstmt
        have _lt := recover_shorter h'
        apply statements_ends fin brace acc _ _ (recover_within h' hs)
        have hr : Passes fin rest' (recover moved rest') [] := by
          apply recover_passes
          intro hm
          rw [hstmt.2 hm]
          rintro _ ⟨⟩
          exact hk
        apply ((hp.trans hstmt.1).trans hr).subset
        intro n hn
        simpa [or_comm] using hn
termination_by ts => 4 * ts.length + 2
decreasing_by all_goals omega

end

end Parser

end Lss
