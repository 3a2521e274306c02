import Lss.Proofs.RecognizedExpr

/-!
# What is derived is read: statements, declarations, units

A statement that could go on with an `else` is read where none follows.
-/
namespace Lss

/-! Which token a derivation starts with. -/

namespace Grammar

variable {G : Prop} {ts rest : List Token}

theorem Block.begins {b : BlockOf Stmt} (h : Block G ts b rest) :
    ∃ left ss, ts = left :: ss ∧ left.kind = .leftBrace := by
  cases h with
  | mk hleft => exact ⟨_, _, rfl, hleft⟩

theorem Statement.begins {s : Stmt} (h : Statement G ts s rest) :
    ∃ t ss, ts = t :: ss ∧ t.kind ≠ .keyword .else_ ∧ t.kind ≠ .rightBrace := by
  cases h with
  | block h =>
    obtain ⟨left, ss, rfl, hleft⟩ := h.begins
    exact ⟨left, ss, rfl, by rw [hleft]; decide, by rw [hleft]; decide⟩
  | expr _ h | assign _ _ h =>
    obtain ⟨t, ss, rfl, hb⟩ := h.begins
    exact ⟨t, ss, rfl, Parser.ne_of_begins hb rfl, Parser.ne_of_begins hb rfl⟩
  | var hk | varInit hk | return_ hk | returnValue hk | if_ hk | ifElse hk | while_ hk
  | doWhile hk | foreach hk => exact ⟨_, _, rfl, by rw [hk]; decide, by rw [hk]; decide⟩

theorem Statements.noElse {ss : List Stmt} {right : Token}
    (h : Statements G ts ss (right :: rest)) (hright : right.kind = .rightBrace) :
    Parser.NoElse ts := by
  cases h with
  | nil => exact .of_kind hright (by decide)
  | cons h =>
    obtain ⟨t, ss, rfl, hne, -⟩ := h.begins
    exact .of_kind rfl hne

theorem Routine.begins {s : Subroutine} (h : Routine G ts s rest) :
    ∃ word ss, ts = word :: ss ∧ word.kind = .keyword .function := by
  obtain ⟨hword⟩ := h
  exact ⟨_, _, rfl, hword⟩

theorem Class.begins {c : ClassDecl} (h : Class G ts c rest) :
    ∃ word ss, ts = word :: ss ∧ word.kind = .keyword .class_ := by
  obtain ⟨hword⟩ := h
  exact ⟨_, _, rfl, hword⟩

end Grammar

namespace Parser

open Grammar

variable {fin : Token} {ts rest : List Token}

/-! Statements. -/

theorem parenthesized_reads {e : Expr} {left right : Token} {opening closing : String}
    (hleft : left.kind = .leftParen) (hright : right.kind = .rightParen)
    (h : Expression True ts e (right :: rest)) :
    (parenthesized opening closing fin (left :: ts)).Gives e rest [] := by
  rw [parenthesized]
  refine (expect_gives hleft).start fun _ => ?_
  exact ((binary_reads fin h).closed hright (.inl rfl) closing).next fun _ => .done

theorem iteration_reads {c : Expr} {left x in_ right : Token} (hleft : left.kind = .leftParen)
    (hx : x.kind = .identifier) (hin : in_.kind = .keyword .in_) (hright : right.kind = .rightParen)
    (h : Expression True ts c (right :: rest)) :
    (iteration fin (left :: x :: in_ :: ts)).Gives (x, c) rest [] := by
  rw [iteration]
  refine (expect_gives hleft).start fun _ => ?_
  refine (identifier_gives hx).next fun _ => ?_
  refine (expect_gives hin).next fun _ => ?_
  exact ((binary_reads fin h).closed hright (.inl rfl) _).next fun _ => .done

theorem repetition_reads {c : Expr} {while_ left right mark : Token}
    (hwhile : while_.kind = .keyword .while_) (hleft : left.kind = .leftParen)
    (hright : right.kind = .rightParen) (hmark : mark.kind = .semicolon)
    (h : Expression True ts c (right :: mark :: rest)) :
    (repetition fin (while_ :: left :: ts)).Gives c rest [] := by
  rw [repetition]
  refine (expect_gives hwhile).start fun _ => ?_
  refine (parenthesized_reads hleft hright h).next fun _ => ?_
  exact (expect_gives hmark).next fun _ => .done

theorem expressionStatement_reads {e : Expr} {mark : Token} (hmark : mark.kind = .semicolon)
    (h : Expression True ts e (mark :: rest)) :
    (expressionStatement fin ts).Gives (.expr e) rest [] := by
  rw [expressionStatement]
  refine (expression_reads h (.of_kind hmark ⟨rfl, rfl⟩)).start fun _ => ?_
  simp only [hmark, reduceCtorEq, if_false]
  exact (expect_gives hmark).next fun _ => .done

theorem assignment_reads {t v : Expr} {eq mark : Token} {ms : List Token} (heq : eq.kind = .assign)
    (hmark : mark.kind = .semicolon) (ht : Expression True ts t (eq :: ms))
    (hv : Expression True ms v (mark :: rest)) :
    (expressionStatement fin ts).Gives (.assign t v) rest [] := by
  rw [expressionStatement]
  refine (expression_reads ht (.of_kind heq ⟨rfl, rfl⟩)).start fun _ => ?_
  simp only [heq, if_true]
  refine (expression_reads hv (.of_kind hmark ⟨rfl, rfl⟩)).next fun _ => ?_
  exact (expect_gives hmark).next fun _ => .done

theorem statement_of_expression {e : Expr} (h : Expression True ts e rest) :
    statement fin ts = expressionStatement fin ts := by
  obtain ⟨t, ss, rfl, hb⟩ := h.begins
  exact statement_of_begins hb

mutual

theorem statement_reads (fin : Token) {ts rest : List Token} {s : Stmt} :
    Statement True ts s rest → (s.dangles → NoElse rest) → (statement fin ts).Gives s rest []
  | .block h, _ => by
    have hg := block_reads fin h
    obtain ⟨left, ss, rfl, hleft⟩ := h.begins
    rw [statement]
    simp only [hleft]
    exact hg.start fun _ => .done
  | .var hword hname hmark, _ => by
    rw [statement]
    simp only [hword]
    apply Reply.Gives.last
    rw [varStatement]
    refine (identifier_gives hname).start fun _ => ?_
    simp only [hmark, reduceCtorEq, if_false]
    exact (expect_gives hmark).next fun _ => .done
  | .varInit hword hname heq hmark h, _ => by
    rw [statement]
    simp only [hword]
    apply Reply.Gives.last
    rw [varStatement]
    refine (identifier_gives hname).start fun _ => ?_
    simp only [heq, if_true]
    refine (expression_reads h (.of_kind hmark ⟨rfl, rfl⟩)).next fun _ => ?_
    exact (expect_gives hmark).next fun _ => .done
  | @Statement.return_ _ rest _ mark hword hmark, _ => by
    rw [statement]
    simp only [hword]
    apply Reply.Gives.last
    rw [returnStatement, if_pos (show peek fin (mark :: rest) = _ from hmark)]
    exact (expect_gives hmark).start fun _ => .done
  | .returnValue hword hmark h, _ => by
    rw [statement]
    simp only [hword]
    apply Reply.Gives.last
    rw [returnStatement, if_neg (peek_ne_of_expression h rfl)]
    refine (expression_reads h (.of_kind hmark ⟨rfl, rfl⟩)).start fun _ => ?_
    exact (expect_gives hmark).next fun _ => .done
  | .expr hmark h, _ => by
    rw [statement_of_expression h]
    exact expressionStatement_reads hmark h
  | .assign heq hmark ht hv, _ => by
    rw [statement_of_expression ht]
    exact assignment_reads heq hmark ht hv
  | .if_ hword hleft hright hc hbody, hrest => by
    have hg := statement_reads fin hbody fun _ => hrest rfl
    rw [statement]
    simp only [hword]
    apply Reply.Gives.last
    rw [ifStatement]
    refine (parenthesized_reads hleft hright hc).start fun _ => ?_
    refine hg.next fun _ => ?_
    split
    · exact .done
    · rw [if_neg (hrest rfl _ rfl)]
      exact .done
  | .ifElse hword hleft hright helse hbare hc hbody harm, hrest => by
    have hg := statement_reads fin hbody fun hd => by
      rw [hbare trivial] at hd
      cases hd
    have hg' := statement_reads fin harm hrest
    rw [statement]
    simp only [hword]
    apply Reply.Gives.last
    rw [ifStatement]
    refine (parenthesized_reads hleft hright hc).start fun _ => ?_
    refine hg.next fun _ => ?_
    simp only [helse, if_true]
    exact hg'.next fun _ => .done
  | .while_ hword hleft hright hc hbody, hrest => by
    have hg := statement_reads fin hbody hrest
    rw [statement]
    simp only [hword]
    apply Reply.Gives.last
    rw [whileStatement]
    refine (parenthesized_reads hleft hright hc).start fun _ => ?_
    exact hg.next fun _ => .done
  | .doWhile hword hwhile hleft hright hmark hbody hc, _ => by
    have hg := statement_reads fin hbody fun _ => .of_kind hwhile (by decide)
    rw [statement]
    simp only [hword]
    apply Reply.Gives.last
    rw [doStatement]
    refine hg.start fun _ => ?_
    exact (repetition_reads hwhile hleft hright hmark hc).next fun _ => .done
  | .foreach hword hleft hx hin hright hc hbody, hrest => by
    have hg := statement_reads fin hbody hrest
    rw [statement]
    simp only [hword]
    apply Reply.Gives.last
    rw [foreachStatement]
    refine (iteration_reads hleft hx hin hright hc).start fun _ => ?_
    exact hg.next fun _ => .done

theorem block_reads (fin : Token) {ts rest : List Token} {b : BlockOf Stmt} :
    Grammar.Block True ts b rest → (block fin ts).Gives b rest []
  | .mk hleft hright h => by
    rw [block]
    refine (expect_gives hleft).start fun hs => ?_
    exact statements_reads fin h _ [] rfl hright hs

theorem statements_reads (fin : Token) {ts tail : List Token} {ss : List Stmt} :
    Grammar.Statements True ts ss tail → ∀ (brace : Token) (acc : List Stmt) {right : Token}
      {rest : List Token}, tail = right :: rest → right.kind = .rightBrace →
      ∀ {all : List Token} (h : Shorter ts all), (statements fin brace acc [] ts h).Gives
        ⟨acc.reverse ++ ss, brace.span + right.span⟩ rest []
  | .nil, brace, acc, right, rest, htail, hright, all, h => by
    subst htail
    rw [statements, if_pos hright, List.append_nil]
    exact .done
  | .cons (s := s) hs hss, brace, acc, right, rest, htail, hright, all, h => by
    have ih := @statements_reads fin _ _ _ hss
    subst htail
    obtain ⟨hlt, hg⟩ := statement_reads fin hs fun _ => hss.noElse hright
    obtain ⟨t, us, rfl, -, hne⟩ := hs.begins
    rw [statements, if_neg hne, hg]
    simpa using ih brace (s :: acc) rfl hright (hlt.within h)

end

/-! Declarations. -/

theorem namedItem_reads {keyword : Keyword} {nameContext endContext : String}
    {word name mark : Token} (h : Item keyword word name mark) :
    (namedItem keyword nameContext endContext fin (word :: name :: mark :: rest)).Gives name rest
      [] := by
  rw [namedItem]
  refine (expect_gives h.1).start fun _ => ?_
  refine (identifier_gives h.2.1).next fun _ => ?_
  exact (expect_gives h.2.2).next fun _ => .done

theorem moreNames_reads {names : List Token} {right : Token} (hright : right.kind = .rightParen)
    (h : MoreNames ts names (right :: rest)) (acc : List Token) {all : List Token}
    (hs : Shorter ts all) :
    (parametersTail fin acc ts hs).Gives (acc.reverse ++ names) (right :: rest) [] := by
  generalize htail : right :: rest = tail at h
  induction h generalizing acc with
  | none =>
    subst htail
    rw [parametersTail, if_neg (by rw [hright]; decide), List.append_nil]
    exact .done
  | some hcomma hname _ ih =>
    obtain ⟨hlt, hg⟩ : (identifier "for parameter name" fin (_ :: _)).Gives _ _ [] :=
      identifier_gives hname
    rw [parametersTail, if_pos hcomma, hg]
    simpa using ih (_ :: acc) (hlt.behind hs) htail

def surplus (function right : Token) (names : List Token) : List Diagnostic :=
  if ParseFault.maxArguments < names.length then
    [(ParseFault.tooManyParameters function.text).at_ right]
  else []

theorem surplus_of_le {function right : Token} {names : List Token}
    (h : names.length ≤ ParseFault.maxArguments) : surplus function right names = [] :=
  if_neg (Nat.not_lt.mpr h)

theorem finishParameters_reads {function right : Token} {names : List Token}
    (hright : right.kind = .rightParen) :
    (finishParameters function names fin (right :: rest)).Gives names rest
      (surplus function right names) := by
  rw [finishParameters]
  exact (expect_gives hright).start fun _ => .done

theorem parameters_reads {function left right : Token} {names : List Token}
    (hleft : left.kind = .leftParen) (hright : right.kind = .rightParen)
    (h : Parameters ts names (right :: rest)) :
    (parameters function fin (left :: ts)).Gives names rest (surplus function right names) := by
  rw [parameters]
  refine (expect_gives hleft).start fun _ => ?_
  cases h with
  | none =>
    rw [if_pos (show peek fin (right :: rest) = _ from hright)]
    exact .last (finishParameters_reads hright)
  | @some ss _ _ name hname h =>
    have hne : peek fin (name :: ss) ≠ .rightParen := by
      change name.kind ≠ _
      rw [hname]
      decide
    rw [if_neg hne]
    refine (identifier_gives hname).next fun hs => ?_
    refine (moreNames_reads hright h [name] hs).start fun _ => ?_
    exact .last (finishParameters_reads hright)

theorem subroutine_reads {s : Subroutine} (h : Routine True ts s rest) :
    (subroutine fin ts).Gives s rest [] := by
  obtain @⟨us, ms, _, names, _, name, left, _, _, hword, hname, hleft, hright, hfew, hnames,
    hbody⟩ := h
  have hps : (parameters name fin (left :: us)).Gives names ms _ :=
    parameters_reads hleft hright hnames
  rw [surplus_of_le hfew] at hps
  rw [subroutine]
  refine (expect_gives hword).start fun _ => ?_
  refine (identifier_gives hname).next fun _ => ?_
  refine hps.next fun _ => ?_
  exact (block_reads fin hbody).next fun _ => .done

/-- Members that are derived are read, and parsing goes on behind them. -/
theorem members_follow {properties tail : List Token} {methods : List Subroutine}
    (h : Grammar.Members True ts properties methods tail) (decl : ClassDecl)
    (notes : List Diagnostic) {all : List Token} (hs : Shorter ts all) :
    ∃ hs', members fin decl notes ts hs
      = members fin (withMembers decl properties methods) notes tail hs' := by
  induction h generalizing decl with
  | nil => exact ⟨hs, rfl⟩
  | @property us _ properties methods word name mark hitem _ ih =>
    have hm : (member fin decl (word :: name :: mark :: us)).Gives
        { decl with properties := name :: decl.properties } us ([] ++ []) := by
      rw [member, show peek fin (word :: name :: mark :: us) = _ from hitem.1]
      exact (namedItem_reads hitem).start fun _ => .done
    obtain ⟨hs', hstep⟩ := members_step notes hs (by rw [hitem.1]; decide) hm
    obtain ⟨hs'', hrest⟩ := ih { decl with properties := name :: decl.properties } hs'
    exact ⟨hs'', hstep.trans (hrest.trans (by simp [withMembers]))⟩
  | @method us ms _ properties m methods hm _ ih =>
    have hg : (subroutine fin us).Gives m ms [] := subroutine_reads hm
    obtain ⟨word, us, rfl, hword⟩ := hm.begins
    have hm : (member fin decl (word :: us)).Gives { decl with methods := m :: decl.methods } ms
        ([] ++ []) := by
      rw [member, show peek fin (word :: us) = _ from hword]
      exact hg.start fun _ => .done
    obtain ⟨hs', hstep⟩ := members_step notes hs (by rw [hword]; decide) hm
    obtain ⟨hs'', hrest⟩ := ih { decl with methods := m :: decl.methods } hs'
    exact ⟨hs'', hstep.trans (hrest.trans (by simp [withMembers]))⟩

theorem members_reads {properties : List Token} {methods : List Subroutine} {right : Token}
    (hright : right.kind = .rightBrace)
    (h : Grammar.Members True ts properties methods (right :: rest)) (decl : ClassDecl)
    {all : List Token} (hs : Shorter ts all) :
    (members fin decl [] ts hs).Gives (finishClass (withMembers decl properties methods)) rest
      [] := by
  obtain ⟨hs', heq⟩ := members_follow h decl [] hs
  rw [heq, members, if_pos hright]
  exact .done

theorem classHead_reads {base : Option Token} (h : Base ts base rest) :
    (classHead fin ts).Gives base rest [] := by
  cases h with
  | none hleft =>
    rw [classHead]
    simp only [hleft, reduceCtorEq, if_false]
    exact (expect_gives hleft).start fun _ => .done
  | some hcolon hbase hleft =>
    rw [classHead]
    simp only [hcolon, if_true]
    refine (identifier_gives hbase).next fun _ => ?_
    exact .last ((expect_gives hleft).start fun _ => .done)

theorem classDeclaration_reads {c : ClassDecl} (h : Class True ts c rest) :
    (classDeclaration fin ts).Gives c rest [] := by
  obtain @⟨_, _, _, properties, _, name, _, base, methods, hword, hname, hright, hbase, hms⟩ := h
  have hc : (⟨name, base, properties, methods⟩ : ClassDecl)
      = finishClass (withMembers ⟨name, base, [], []⟩ properties methods) := by
    simp [finishClass, withMembers]
  rw [classDeclaration, hc]
  refine (expect_gives hword).start fun _ => ?_
  refine (identifier_gives hname).next fun _ => ?_
  refine (classHead_reads hbase).next fun hs => ?_
  exact members_reads hright hms ⟨name, base, [], []⟩ hs

/-- Declarations that are derived with every choice made are read, and without complaint. -/
theorem declarations_reads {globals : List Token} {functions : List Subroutine}
    {classes : List ClassDecl} (h : Declarations True ts globals functions classes)
    (u : SourceUnit) : declarations fin u [] ts
      = (finishUnit (withDeclarations u globals functions classes), []) := by
  induction h generalizing u with
  | nil =>
    rw [declarations]
    rfl
  | @global us globals functions classes word name mark hitem _ ih =>
    have hd : (declaration fin u (word :: name :: mark :: us)).Gives
        { u with globals := name :: u.globals } us ([] ++ []) := by
      rw [declaration, show peek fin (word :: name :: mark :: us) = _ from hitem.1]
      exact (namedItem_reads hitem).start fun _ => .done
    rw [declarations_step hd]
    simpa [withDeclarations] using ih { u with globals := name :: u.globals }
  | @function us ms globals f functions classes hf _ ih =>
    have hg : (subroutine fin us).Gives f ms [] := subroutine_reads hf
    obtain ⟨word, us, rfl, hword⟩ := hf.begins
    have hd : (declaration fin u (word :: us)).Gives { u with functions := f :: u.functions } ms
        ([] ++ []) := by
      rw [declaration, show peek fin (word :: us) = _ from hword]
      exact hg.start fun _ => .done
    rw [declarations_step hd]
    simpa [withDeclarations] using ih { u with functions := f :: u.functions }
  | @class_ us ms globals functions c classes hc _ ih =>
    have hg : (classDeclaration fin us).Gives c ms [] := classDeclaration_reads hc
    obtain ⟨word, us, rfl, hword⟩ := hc.begins
    have hd : (declaration fin u (word :: us)).Gives { u with classes := c :: u.classes } ms
        ([] ++ []) := by
      rw [declaration, show peek fin (word :: us) = _ from hword]
      exact hg.start fun _ => .done
    rw [declarations_step hd]
    simpa [withDeclarations] using ih { u with classes := c :: u.classes }

end Parser

end Lss
