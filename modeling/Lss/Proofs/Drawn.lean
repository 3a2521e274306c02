import Lss.Tree.Parser.Stmt

/-!
# Parsers take names from tokens: expressions

Whatever is wrong with what a parser reads, the names in the tree that it gives are among the tokens
that it was given, and so is all that it leaves.
-/
namespace Lss

/-! Names in a tree. -/

mutual

def Expr.Names (P : Token → Prop) : Expr → Prop
  | .variable t => P t
  | .literal _ | .pending _ | .construct _ none _ => True
  | .grouping e | .unary _ e _ => e.Names P
  | .binary left _ right => left.Names P ∧ right.Names P
  | .index a i _ => a.Names P ∧ i.Names P
  | .array es _ | .construct _ (some es) _ => Expr.AllNames P es
  | .call target es _ => target.Names P ∧ Expr.AllNames P es
termination_by structural e => e

def Expr.AllNames (P : Token → Prop) : List Expr → Prop
  | [] => True
  | e :: es => e.Names P ∧ Expr.AllNames P es
termination_by structural es => es

end

mutual

def Stmt.Names (P : Token → Prop) : Stmt → Prop
  | .block ⟨ss, _⟩ => Stmt.AllNames P ss
  | .expr e | .return_ (some e) _ | .var _ (some e) => e.Names P
  | .return_ none _ | .var _ none => True
  | .if_ none body none _ => body.Names P
  | .if_ none body (some arm) _ => body.Names P ∧ arm.Names P
  | .if_ (some c) body none _ => c.Names P ∧ body.Names P
  | .if_ (some c) body (some arm) _ => c.Names P ∧ body.Names P ∧ arm.Names P
  | .while_ c body | .doWhile body c | .foreach _ c body => c.Names P ∧ body.Names P
  | .assign target value => target.Names P ∧ value.Names P
  | .classDecl _ | .property _ | .subroutine _ | .global _ => True
termination_by structural s => s

def Stmt.AllNames (P : Token → Prop) : List Stmt → Prop
  | [] => True
  | s :: ss => s.Names P ∧ Stmt.AllNames P ss
termination_by structural ss => ss

end

section

variable {P : Token → Prop}

theorem Expr.allNames_iff {es : List Expr} : Expr.AllNames P es ↔ ∀ e ∈ es, e.Names P := by
  induction es with
  | nil => simp [Expr.AllNames]
  | cons e es ih => simp [Expr.AllNames, ih]

mutual

theorem Expr.Names.imp {Q : Token → Prop} (h : ∀ t, P t → Q t) : (e : Expr) → e.Names P → e.Names Q
  | .variable t, he => h t he
  | .literal _, _ | .pending _, _ | .construct _ none _, _ => by simp only [Expr.Names]
  | .grouping e, he | .unary _ e _, he => Expr.Names.imp h e he
  | .binary left _ right, he => ⟨Expr.Names.imp h left he.1, Expr.Names.imp h right he.2⟩
  | .index a i _, he => ⟨Expr.Names.imp h a he.1, Expr.Names.imp h i he.2⟩
  | .array es _, he | .construct _ (some es) _, he => Expr.AllNames.imp h es he
  | .call target es _, he => ⟨Expr.Names.imp h target he.1, Expr.AllNames.imp h es he.2⟩

theorem Expr.AllNames.imp {Q : Token → Prop} (h : ∀ t, P t → Q t) :
    (es : List Expr) → Expr.AllNames P es → Expr.AllNames Q es
  | [], _ => trivial
  | e :: es, he => ⟨Expr.Names.imp h e he.1, Expr.AllNames.imp h es he.2⟩

end

mutual

theorem Expr.names_of_forall (h : ∀ t, P t) : (e : Expr) → e.Names P
  | .variable t => h t
  | .literal _ | .pending _ | .construct _ none _ => by simp only [Expr.Names]
  | .grouping e | .unary _ e _ => Expr.names_of_forall h e
  | .binary left _ right => ⟨Expr.names_of_forall h left, Expr.names_of_forall h right⟩
  | .index a i _ => ⟨Expr.names_of_forall h a, Expr.names_of_forall h i⟩
  | .array es _ | .construct _ (some es) _ => Expr.allNames_of_forall h es
  | .call target es _ => ⟨Expr.names_of_forall h target, Expr.allNames_of_forall h es⟩

theorem Expr.allNames_of_forall (h : ∀ t, P t) : (es : List Expr) → Expr.AllNames P es
  | [] => trivial
  | e :: es => ⟨Expr.names_of_forall h e, Expr.allNames_of_forall h es⟩

end

theorem Stmt.allNames_iff {ss : List Stmt} : Stmt.AllNames P ss ↔ ∀ s ∈ ss, s.Names P := by
  induction ss with
  | nil => simp [Stmt.AllNames]
  | cons s ss ih => simp [Stmt.AllNames, ih]

end

namespace Reply

variable {α β : Type} {ss ts : List Token} {P : Token → Prop} {Q : α → Prop} {R : β → Prop}

def Draws (P : Token → Prop) (Q : α → Prop) : Reply α ts → Prop
  | .done a rest _ _ => (∀ t ∈ rest, P t) ∧ Q a
  | .gaveUp _ rest _ _ => ∀ t ∈ rest, P t

theorem Draws.after {r : Reply β ts} {notes : List Diagnostic} (h : r.Draws P R) :
    (r.after notes).Draws P R := by
  cases r with
  | done b rest more hs => exact h
  | gaveUp moved rest more hs => exact h

theorem Draws.start {r : Reply α ts}
    {f : (a : α) → (rest : List Token) → Shorter rest ts → Reply β ts} (h : r.Draws P Q)
    (hf : ∀ a rest hs, (∀ t ∈ rest, P t) → Q a → (f a rest hs).Draws P R) :
    (r.start f).Draws P R := by
  cases r with
  | done a rest notes hs => exact (hf a rest hs h.1 h.2).after
  | gaveUp moved rest notes hs => exact h

theorem Draws.next {r : Reply α ss} {hs : Shorter ss ts}
    {f : (a : α) → (rest : List Token) → Shorter rest ts → Reply β ts} (h : r.Draws P Q)
    (hf : ∀ a rest hr, Shorter rest ss → (∀ t ∈ rest, P t) → Q a → (f a rest hr).Draws P R) :
    (r.next hs f).Draws P R := by
  cases r with
  | done a rest notes hr => exact (hf a rest _ hr h.1 h.2).after
  | gaveUp moved rest notes hr => exact h

theorem Draws.last {r : Reply α ss} {hs : Shorter ss ts} (h : r.Draws P Q) :
    (r.last hs).Draws P Q := by
  cases r with
  | done a rest notes hr => exact h
  | gaveUp moved rest notes hr => exact h

end Reply

namespace Parser

variable {P : Token → Prop} {fin : Token} {ts rest : List Token}

/-! Tokens. -/

theorem all_tail {t : Token} (h : ∀ s ∈ t :: ts, P s) : ∀ s ∈ ts, P s :=
  fun s hs => h s (List.mem_cons_of_mem _ hs)

theorem expect_draws {kind : TokenKind} {context : String} (h : ∀ t ∈ ts, P t) :
    (expect kind context fin ts).Draws P P := by
  unfold expect
  split
  · next t rest =>
    split
    · exact ⟨all_tail h, h t List.mem_cons_self⟩
    · exact h
  · exact h

theorem identifier_draws {context : String} (h : ∀ t ∈ ts, P t) :
    (identifier context fin ts).Draws P fun t => P t ∧ t.kind = .identifier := by
  unfold identifier
  split
  · next t rest =>
    split
    · next hk => exact ⟨all_tail h, h t List.mem_cons_self, hk⟩
    · exact h
  · exact h

theorem memberName_draws (h : ∀ t ∈ ts, P t) : (memberName fin ts).Draws P P := by
  unfold memberName
  split
  · next t rest =>
    split
    · exact ⟨all_tail h, h t List.mem_cons_self⟩
    · exact h
  · exact h

theorem synchronize_all (depth : Nat) (ts : List Token) (h : ∀ t ∈ ts, P t) :
    ∀ t ∈ synchronize depth ts, P t := by
  fun_induction synchronize depth ts with
  | case1 => exact h
  | case2 | case6 => exact all_tail h
  | case5 | case8 => exact h
  | case3 _ _ _ _ _ ih | case4 _ _ _ _ ih | case7 _ _ _ _ ih | case9 _ _ _ _ _ _ _ ih =>
    exact ih (all_tail h)

theorem recover_all {moved : Bool} (h : ∀ t ∈ rest, P t) : ∀ t ∈ recover moved rest, P t := by
  unfold recover
  split
  · exact h
  · split
    · exact all_tail h
    · exact synchronize_all 0 _ h

/-! Expressions. -/

theorem applyUnary_names {op : Token} {e : Expr} (h : e.Names P) : (applyUnary op e).Names P := by
  unfold applyUnary
  split
  · split <;> simp only [Expr.Names]
  · simpa only [Expr.Names] using h

theorem finishArguments_draws {all : List Token} {close : TokenKind} {context : String}
    {acc : List Expr} {notes : List Diagnostic} {h : Shorter ts all} (hts : ∀ t ∈ ts, P t)
    (hacc : Expr.AllNames P acc) :
    (finishArguments fin close context acc notes ts h).Draws P fun x => Expr.AllNames P x.1 := by
  unfold finishArguments
  refine .after (.next (expect_draws hts) ?_)
  intro mark rest hr _ hrest _
  refine ⟨hrest, Expr.allNames_iff.mpr fun e he => ?_⟩
  exact Expr.allNames_iff.mp hacc e (List.mem_reverse.mp he)

mutual

theorem expression_draws (fin : Token) (ts : List Token) (h : ∀ t ∈ ts, P t) :
    (expression fin ts).Draws P (Expr.Names P) := by
  rw [expression]
  exact binary_draws fin 1 ts h
termination_by 8 * ts.length + 5

theorem binary_draws (fin : Token) (floor : Nat) (ts : List Token) (h : ∀ t ∈ ts, P t) :
    (binary fin floor ts).Draws P (Expr.Names P) := by
  rw [binary]
  have hu := unary_draws fin ts h
  split
  · next left rest notes hs heq =>
    rw [heq] at hu
    exact binaryTail_draws fin floor left notes rest hs hu.1 hu.2
  · next heq =>
    rw [heq] at hu
    exact hu
termination_by 8 * ts.length + 4
decreasing_by all_goals omega

theorem binaryTail_draws {all : List Token} (fin : Token) (floor : Nat) (left : Expr)
    (notes : List Diagnostic) : (ts : List Token) → (hs : Shorter ts all) → (∀ t ∈ ts, P t) →
    left.Names P → (binaryTail fin floor left notes ts hs).Draws P (Expr.Names P)
  | [], hs, h, hl => by
    rw [binaryTail]
    exact ⟨h, hl⟩
  | t :: rest, hs, h, hl => by
    rw [binaryTail]
    split
    · next op hop =>
      split
      · exact ⟨h, hl⟩
      · have hr := binary_draws fin (rightFloor op) rest (all_tail h)
        split
        · next right rest' more h' heq =>
          rw [heq] at hr
          refine binaryTail_draws fin floor _ _ rest' (h'.behind hs) hr.1 ?_
          simp only [Expr.Names]
          exact ⟨hl, hr.2⟩
        · next heq =>
          rw [heq] at hr
          exact hr
    · exact ⟨h, hl⟩
termination_by ts => 8 * ts.length
decreasing_by all_goals (simp only [List.length_cons]; omega)

theorem unary_draws (fin : Token) : (ts : List Token) → (∀ t ∈ ts, P t) →
    (unary fin ts).Draws P (Expr.Names P)
  | [], h => by
    rw [unary]
    exact trailing_draws fin [] h
  | t :: rest, h => by
    have signed : ((unary fin rest).next (.tail t rest) fun e rest' hr =>
        .done (applyUnary t e) rest' [] hr).Draws P (Expr.Names P) :=
      .next (unary_draws fin rest (all_tail h)) fun e rest' hr _ hrest he =>
        ⟨hrest, applyUnary_names he⟩
    rw [unary]
    split
    · exact signed
    · exact signed
    · exact signed
    · exact trailing_draws fin (t :: rest) h
termination_by ts => 8 * ts.length + 3
decreasing_by all_goals (simp only [List.length_cons] at *; omega)

theorem trailing_draws (fin : Token) (ts : List Token) (h : ∀ t ∈ ts, P t) :
    (trailing fin ts).Draws P (Expr.Names P) := by
  rw [trailing]
  have hp := primary_draws fin ts h
  split
  · next e rest notes hs heq =>
    rw [heq] at hp
    exact trailingTail_draws fin e notes rest hs hp.1 hp.2
  · next heq =>
    rw [heq] at hp
    exact hp
termination_by 8 * ts.length + 2
decreasing_by all_goals omega

theorem trailingTail_draws {all : List Token} (fin : Token) (e : Expr) (notes : List Diagnostic) :
    (ts : List Token) → (hs : Shorter ts all) → (∀ t ∈ ts, P t) → e.Names P →
    (trailingTail fin e notes ts hs).Draws P (Expr.Names P)
  | [], hs, h, he => by
    rw [trailingTail]
    exact ⟨h, he⟩
  | t :: rest, hs, h, he => by
    rw [trailingTail]
    have hrest := all_tail h
    split
    · have hm : (memberName fin rest).Draws P P := memberName_draws hrest
      split
      · next name rest' more h' heq =>
        rw [heq] at hm
        refine trailingTail_draws fin _ _ rest' (h'.behind hs) hm.1 ?_
        simp only [Expr.Names]
        exact ⟨he, hm.2⟩
      · next heq =>
        rw [heq] at hm
        exact hm
    · have hm : (identifier "after '::'" fin rest).Draws P fun t => P t ∧ t.kind = .identifier :=
        identifier_draws hrest
      split
      · next name rest' more h' heq =>
        rw [heq] at hm
        refine trailingTail_draws fin _ _ rest' (h'.behind hs) hm.1 ?_
        simp only [Expr.Names]
        exact ⟨he, hm.2.1⟩
      · next heq =>
        rw [heq] at hm
        exact hm
    · have hm := primary_draws fin rest hrest
      split
      · next name rest' more h' heq =>
        rw [heq] at hm
        refine trailingTail_draws fin _ _ rest' (h'.behind hs) hm.1 ?_
        simp only [Expr.Names]
        exact ⟨he, hm.2⟩
      · next heq =>
        rw [heq] at hm
        exact hm
    · have hm := primary_draws fin rest hrest
      split
      · next name rest' more h' heq =>
        rw [heq] at hm
        refine trailingTail_draws fin _ _ rest' (h'.behind hs) hm.1 ?_
        simp only [Expr.Names]
        exact ⟨he, hm.2⟩
      · next heq =>
        rw [heq] at hm
        exact hm
    · have hm := closed_draws fin .rightBracket "after index" rest hrest
      split
      · next i close rest' more h' heq =>
        rw [heq] at hm
        refine trailingTail_draws fin _ _ rest' (h'.behind hs) hm.1 ?_
        simp only [Expr.Names]
        exact ⟨he, hm.2⟩
      · next heq =>
        rw [heq] at hm
        exact hm
    · have hm := arguments_draws fin .rightParen "after arguments" rest hrest
      split
      · next es close rest' more h' heq =>
        rw [heq] at hm
        refine trailingTail_draws fin _ _ rest' (h'.behind hs) hm.1 ?_
        simp only [Expr.Names]
        exact ⟨he, hm.2⟩
      · next heq =>
        rw [heq] at hm
        exact hm
    · exact ⟨h, he⟩
termination_by ts => 8 * ts.length
decreasing_by all_goals (simp only [List.length_cons]; omega)

theorem primary_draws (fin : Token) : (ts : List Token) → (∀ t ∈ ts, P t) →
    (primary fin ts).Draws P (Expr.Names P)
  | [], h => by
    rw [primary]
    exact h
  | t :: rest, h => by
    rw [primary]
    have hrest := all_tail h
    have hvariable : (Expr.variable t).Names P := h t List.mem_cons_self
    split
    · exact ⟨hrest, hvariable⟩
    · exact ⟨hrest, hvariable⟩
    · exact .next (closed_draws fin .rightParen _ rest hrest) fun x _ _ _ hrest' hx =>
        ⟨hrest', by simpa only [Expr.Names] using hx⟩
    · exact .next (arguments_draws fin .rightBracket _ rest hrest) fun x _ _ _ hrest' hx =>
        ⟨hrest', by simpa only [Expr.Names] using hx⟩
    · exact .last (construction_draws fin t rest hrest)
    · split
      · exact ⟨hrest, by simp only [Expr.Names]⟩
      · exact h
termination_by ts => 8 * ts.length + 1
decreasing_by all_goals (simp only [List.length_cons]; omega)

theorem construction_draws (fin keyword : Token) (ts : List Token) (h : ∀ t ∈ ts, P t) :
    (construction fin keyword ts).Draws P (Expr.Names P) := by
  rw [construction]
  refine .start (identifier_draws h) fun type rest hr hrest _ => ?_
  split
  · exact ⟨hrest, by simp only [Expr.Names]⟩
  · next t rest hr =>
    have _lt : Shorter rest ts := hr.of_cons
    split
    · exact .next (arguments_draws fin .rightParen _ rest (all_tail hrest)) fun x _ _ _ hrest' hx =>
        ⟨hrest', by simpa only [Expr.Names] using hx⟩
    · exact ⟨hrest, by simp only [Expr.Names]⟩
termination_by 8 * ts.length + 7
decreasing_by all_goals omega

theorem closed_draws (fin : Token) (close : TokenKind) (context : String) (ts : List Token)
    (h : ∀ t ∈ ts, P t) :
    (closed fin close context ts).Draws P fun x => x.1.Names P := by
  rw [closed]
  refine .start (expression_draws fin ts h) fun e rest hr hrest he => ?_
  exact .next (expect_draws hrest) fun mark rest' _ _ hrest' _ => ⟨hrest', he⟩
termination_by 8 * ts.length + 6
decreasing_by all_goals omega

theorem arguments_draws (fin : Token) (close : TokenKind) (context : String) (ts : List Token)
    (h : ∀ t ∈ ts, P t) :
    (arguments fin close context ts).Draws P fun x => Expr.AllNames P x.1 := by
  rw [arguments]
  split
  · exact .start (expect_draws h) fun mark rest' _ hrest' _ => ⟨hrest', trivial⟩
  · have he := expression_draws fin ts h
    split
    · next e rest notes hs heq =>
      rw [heq] at he
      exact argumentsTail_draws fin close context [e] notes rest hs he.1 ⟨he.2, trivial⟩
    · next heq =>
      rw [heq] at he
      exact he
termination_by 8 * ts.length + 6
decreasing_by all_goals omega

theorem argumentsTail_draws {all : List Token} (fin : Token) (close : TokenKind) (context : String)
    (acc : List Expr) (notes : List Diagnostic) : (ts : List Token) → (hs : Shorter ts all) →
    (∀ t ∈ ts, P t) → Expr.AllNames P acc →
    (argumentsTail fin close context acc notes ts hs).Draws P fun x => Expr.AllNames P x.1
  | [], hs, h, hacc => by
    rw [argumentsTail]
    exact finishArguments_draws h hacc
  | t :: rest, hs, h, hacc => by
    rw [argumentsTail]
    split
    · have he := expression_draws fin rest (all_tail h)
      split
      · next e rest' more h' heq =>
        rw [heq] at he
        exact argumentsTail_draws fin close context (e :: acc) _ rest' (h'.behind hs) he.1
          ⟨he.2, hacc⟩
      · next heq =>
        rw [heq] at he
        exact he
    · exact finishArguments_draws h hacc
termination_by ts => 8 * ts.length
decreasing_by all_goals (simp only [List.length_cons]; omega)

end

end Parser

end Lss
