import Lss.Proofs.Contained
import Lss.Proofs.Spanned
import Lss.Tree.Parser.Unit

/-!
# Spans of the expressions of a unit

Wherever a parser of statements and declarations reads an expression, and whatever had to be dropped
around it, it reads it from tokens that stand together in the text. So all expressions of a unit are
placed there.
-/
namespace Lss

mutual

/-- All expressions that stand in a statement, on their own or in others, satisfy `P`. -/
def Stmt.Exprs (P : Expr → Prop) : Stmt → Prop
  | .block ⟨ss, _⟩ => Stmt.AllExprs P ss
  | .expr e | .return_ (some e) _ | .var _ (some e) => P e
  | .return_ none _ | .var _ none => True
  | .if_ none body none _ => body.Exprs P
  | .if_ none body (some arm) _ => body.Exprs P ∧ arm.Exprs P
  | .if_ (some c) body none _ => P c ∧ body.Exprs P
  | .if_ (some c) body (some arm) _ => P c ∧ body.Exprs P ∧ arm.Exprs P
  | .while_ c body | .doWhile body c | .foreach _ c body => P c ∧ body.Exprs P
  | .assign target value => P target ∧ P value
  | .classDecl _ | .property _ | .subroutine _ | .global _ => True
termination_by structural s => s

def Stmt.AllExprs (P : Expr → Prop) : List Stmt → Prop
  | [] => True
  | s :: ss => s.Exprs P ∧ Stmt.AllExprs P ss
termination_by structural ss => ss

end

def SubroutineOf.Exprs (P : Expr → Prop) (s : Subroutine) : Prop :=
  Stmt.AllExprs P s.body.statements

def ClassDeclOf.Exprs (P : Expr → Prop) (c : ClassDecl) : Prop := ∀ m ∈ c.methods, m.Exprs P

structure SourceUnit.Exprs (P : Expr → Prop) (u : SourceUnit) : Prop where
  functions : ∀ f ∈ u.functions, f.Exprs P
  classes : ∀ c ∈ u.classes, c.Exprs P

variable {P : Expr → Prop}

theorem Stmt.allExprs_iff {ss : List Stmt} : Stmt.AllExprs P ss ↔ ∀ s ∈ ss, s.Exprs P := by
  induction ss with
  | nil => simp [Stmt.AllExprs]
  | cons s ss ih => simp [Stmt.AllExprs, ih]

namespace Reply

variable {α β : Type} {all ss ts : List Token} {Q : α → Prop} {R : β → Prop}

def Leaves (all : List Token) (Q : α → Prop) : Reply α ts → Prop
  | .done a rest _ _ => rest <:+ all ∧ Q a
  | .gaveUp _ rest _ _ => rest <:+ all

theorem Leaves.after {r : Reply β ts} {notes : List Diagnostic} (h : r.Leaves all R) :
    (r.after notes).Leaves all R := by
  cases r with
  | done b rest more hs => exact h
  | gaveUp moved rest more hs => exact h

theorem Leaves.start {r : Reply α ts}
    {f : (a : α) → (rest : List Token) → Shorter rest ts → Reply β ts} (h : r.Leaves all Q)
    (hf : ∀ a rest hs, rest <:+ all → Q a → (f a rest hs).Leaves all R) :
    (r.start f).Leaves all R := by
  cases r with
  | done a rest notes hs => exact (hf a rest hs h.1 h.2).after
  | gaveUp moved rest notes hs => exact h

theorem Leaves.next {r : Reply α ss} {hs : Shorter ss ts}
    {f : (a : α) → (rest : List Token) → Shorter rest ts → Reply β ts} (h : r.Leaves all Q)
    (hf : ∀ a rest hr, Shorter rest ss → rest <:+ all → Q a → (f a rest hr).Leaves all R) :
    (r.next hs f).Leaves all R := by
  cases r with
  | done a rest notes hr => exact (hf a rest _ hr h.1 h.2).after
  | gaveUp moved rest notes hr => exact h

theorem Leaves.last {r : Reply α ss} {hs : Shorter ss ts} (h : r.Leaves all Q) :
    (r.last hs).Leaves all Q := by
  cases r with
  | done a rest notes hr => exact h
  | gaveUp moved rest notes hr => exact h

end Reply

namespace Parser

variable {fin : Token} {all ts rest : List Token}

/-! Tokens. -/

theorem suffix_tail {t : Token} (h : t :: rest <:+ all) : rest <:+ all :=
  (List.suffix_cons t rest).trans h

theorem expect_leaves {kind : TokenKind} {context : String} (h : ts <:+ all) :
    (expect kind context fin ts).Leaves all fun _ => True := by
  unfold expect
  split
  · split
    · exact ⟨suffix_tail h, trivial⟩
    · exact h
  · exact h

theorem identifier_leaves {context : String} (h : ts <:+ all) :
    (identifier context fin ts).Leaves all fun _ => True := by
  unfold identifier
  split
  · split
    · exact ⟨suffix_tail h, trivial⟩
    · exact h
  · exact h

theorem synchronize_suffix (depth : Nat) (ts : List Token) : synchronize depth ts <:+ ts := by
  fun_induction synchronize depth ts with
  | case1 | case5 | case8 => exact List.suffix_refl _
  | case2 | case6 => exact List.suffix_cons _ _
  | case3 _ _ _ _ _ ih | case4 _ _ _ _ ih | case7 _ _ _ _ ih | case9 _ _ _ _ _ _ _ ih =>
    exact ih.trans (List.suffix_cons _ _)

theorem recover_suffix (moved : Bool) (rest : List Token) : recover moved rest <:+ rest := by
  unfold recover
  split
  · exact List.suffix_refl _
  · split
    · exact List.suffix_cons _ _
    · exact synchronize_suffix 0 _

def Finds (fin : Token) (all : List Token) (P : Expr → Prop) : Prop :=
  ∀ ts, ts <:+ all → (expression fin ts).Leaves all P

theorem Finds.closed (hP : Finds fin all P) {close : TokenKind} {context : String}
    (h : ts <:+ all) : (closed fin close context ts).Leaves all fun x => P x.1 := by
  rw [Parser.closed]
  refine .start (hP ts h) fun e rest hr hrest he => ?_
  exact .next (expect_leaves hrest) fun mark rest' _ _ hrest' _ => ⟨hrest', he⟩

/-! Statements. -/

theorem Finds.varStatement (hP : Finds fin all P) (h : ts <:+ all) :
    (varStatement fin ts).Leaves all (Stmt.Exprs P) := by
  unfold Parser.varStatement
  refine .start (identifier_leaves h) fun name rest hr hrest _ => ?_
  have finish (init : Option Expr) (rest' : List Token) (hr' : Shorter rest' ts)
      (hrest' : rest' <:+ all) (hinit : (Stmt.var name init).Exprs P) :
      ((expect .semicolon "after variable declaration" fin rest').next hr' fun _ rest hr =>
        Reply.done (Stmt.var name init) rest [] hr).Leaves all (Stmt.Exprs P) :=
    .next (expect_leaves hrest') fun mark rest'' _ _ hrest'' _ => ⟨hrest'', hinit⟩
  simp only
  split
  · next hr => exact finish none [] hr hrest trivial
  · next t rest hr =>
    split
    · refine .next (hP rest (suffix_tail hrest)) fun e rest' hr' _ hrest' he => ?_
      exact finish (some e) rest' hr' hrest' he
    · exact finish none (t :: rest) hr hrest trivial

theorem Finds.returnStatement (hP : Finds fin all P) {keyword : Token} (h : ts <:+ all) :
    (returnStatement fin keyword ts).Leaves all (Stmt.Exprs P) := by
  unfold Parser.returnStatement
  split
  · exact .start (expect_leaves h) fun mark rest' _ hrest' _ => ⟨hrest', trivial⟩
  · refine .start (hP ts h) fun e rest hr hrest he => ?_
    exact .next (expect_leaves hrest) fun mark rest' _ _ hrest' _ => ⟨hrest', he⟩

theorem Finds.expressionStatement (hP : Finds fin all P) (h : ts <:+ all) :
    (expressionStatement fin ts).Leaves all (Stmt.Exprs P) := by
  unfold Parser.expressionStatement
  refine .start (hP ts h) fun e rest hr hrest he => ?_
  have finish (rest' : List Token) (hr' : Shorter rest' ts) (hrest' : rest' <:+ all) :
      ((expect .semicolon "after expression" fin rest').next hr' fun _ rest hr =>
        Reply.done (Stmt.expr e) rest [] hr).Leaves all (Stmt.Exprs P) :=
    .next (expect_leaves hrest') fun mark rest'' _ _ hrest'' _ => ⟨hrest'', he⟩
  simp only
  split
  · next hr => exact finish [] hr hrest
  · next t rest hr =>
    split
    · refine .next (hP rest (suffix_tail hrest)) fun value rest' hr' _ hrest' hv => ?_
      exact .next (expect_leaves hrest') fun mark rest'' _ _ hrest'' _ => ⟨hrest'', he, hv⟩
    · exact finish (t :: rest) hr hrest

theorem Finds.parenthesized (hP : Finds fin all P) {opening closing : String} (h : ts <:+ all) :
    (parenthesized opening closing fin ts).Leaves all P := by
  unfold Parser.parenthesized
  refine .start (expect_leaves h) fun mark rest hr hrest _ => ?_
  exact .next (hP.closed hrest) fun x rest' _ _ hrest' hx => ⟨hrest', hx⟩

theorem Finds.iteration (hP : Finds fin all P) (h : ts <:+ all) :
    (iteration fin ts).Leaves all fun x => P x.2 := by
  unfold Parser.iteration
  refine .start (expect_leaves h) fun mark rest hr hrest _ => ?_
  refine .next (identifier_leaves hrest) fun x rest hr _ hrest _ => ?_
  refine .next (expect_leaves hrest) fun mark rest hr _ hrest _ => ?_
  exact .next (hP.closed hrest) fun inner rest' _ _ hrest' hc => ⟨hrest', hc⟩

theorem Finds.repetition (hP : Finds fin all P) (h : ts <:+ all) :
    (repetition fin ts).Leaves all P := by
  unfold Parser.repetition
  refine .start (expect_leaves h) fun mark rest hr hrest _ => ?_
  refine .next (hP.parenthesized hrest) fun c rest hr _ hrest hc => ?_
  exact .next (expect_leaves hrest) fun mark rest' _ _ hrest' _ => ⟨hrest', hc⟩

mutual

theorem Finds.statement (hP : Finds fin all P) : (ts : List Token) → ts <:+ all →
    (statement fin ts).Leaves all (Stmt.Exprs P)
  | [], h => by
    rw [Parser.statement]
    exact hP.expressionStatement h
  | t :: rest, h => by
    have hrest := suffix_tail h
    rw [Parser.statement]
    split
    · exact .start (Finds.block hP (t :: rest) h) fun ⟨ss, span⟩ rest' hr hrest' hb => ⟨hrest', hb⟩
    · exact .last (hP.varStatement hrest)
    · exact .last (hP.returnStatement hrest)
    · exact .last (Finds.ifStatement hP t rest hrest)
    · exact .last (Finds.whileStatement hP rest hrest)
    · exact .last (Finds.doStatement hP rest hrest)
    · exact .last (Finds.foreachStatement hP rest hrest)
    · exact hrest
    · exact hrest
    · exact hrest
    · exact hrest
    · exact hP.expressionStatement h
termination_by ts => 4 * ts.length + 1
decreasing_by all_goals (simp only [List.length_cons]; omega)

theorem Finds.ifStatement (hP : Finds fin all P) (keyword : Token) (ts : List Token)
    (h : ts <:+ all) : (ifStatement fin keyword ts).Leaves all (Stmt.Exprs P) := by
  rw [Parser.ifStatement]
  refine .start (hP.parenthesized h) fun c rest hr hrest hc => ?_
  refine .next (Finds.statement hP rest hrest) fun body rest' hr' _ hrest' hbody => ?_
  split
  · exact ⟨hrest', hc, hbody⟩
  · next t rest'' hr'' _ =>
    have _lt : Shorter rest'' ts := hr''.of_cons
    split
    · exact .next (Finds.statement hP rest'' (suffix_tail hrest')) fun arm last _ _ hlast harm =>
        ⟨hlast, hc, hbody, harm⟩
    · exact ⟨hrest', hc, hbody⟩
termination_by 4 * ts.length + 2
decreasing_by all_goals omega

theorem Finds.whileStatement (hP : Finds fin all P) (ts : List Token) (h : ts <:+ all) :
    (whileStatement fin ts).Leaves all (Stmt.Exprs P) := by
  rw [Parser.whileStatement]
  refine .start (hP.parenthesized h) fun c rest hr hrest hc => ?_
  exact .next (Finds.statement hP rest hrest) fun body rest' _ _ hrest' hbody =>
    ⟨hrest', hc, hbody⟩
termination_by 4 * ts.length + 2
decreasing_by all_goals omega

theorem Finds.doStatement (hP : Finds fin all P) (ts : List Token) (h : ts <:+ all) :
    (doStatement fin ts).Leaves all (Stmt.Exprs P) := by
  rw [Parser.doStatement]
  refine .start (Finds.statement hP ts h) fun body rest hr hrest hbody => ?_
  exact .next (hP.repetition hrest) fun c rest' _ _ hrest' hc => ⟨hrest', hc, hbody⟩
termination_by 4 * ts.length + 2
decreasing_by all_goals omega

theorem Finds.foreachStatement (hP : Finds fin all P) (ts : List Token) (h : ts <:+ all) :
    (foreachStatement fin ts).Leaves all (Stmt.Exprs P) := by
  rw [Parser.foreachStatement]
  refine .start (hP.iteration h) fun head rest hr hrest hhead => ?_
  exact .next (Finds.statement hP rest hrest) fun body rest' _ _ hrest' hbody =>
    ⟨hrest', hhead, hbody⟩
termination_by 4 * ts.length + 2
decreasing_by all_goals omega

theorem Finds.block (hP : Finds fin all P) (ts : List Token) (h : ts <:+ all) :
    (block fin ts).Leaves all fun b => Stmt.AllExprs P b.statements := by
  rw [Parser.block]
  refine .start (expect_leaves h) fun brace rest hr hrest _ => ?_
  exact Finds.statements hP brace [] [] rest hr hrest trivial
termination_by 4 * ts.length
decreasing_by all_goals omega

theorem Finds.statements {whole : List Token} (hP : Finds fin all P) (brace : Token)
    (acc : List Stmt) (notes : List Diagnostic) : (ts : List Token) → (hs : Shorter ts whole) →
    ts <:+ all → Stmt.AllExprs P acc →
    (statements fin brace acc notes ts hs).Leaves all fun b => Stmt.AllExprs P b.statements
  | [], hs, h, hacc => by
    rw [Parser.statements]
    exact ⟨h, Stmt.allExprs_iff.mpr fun s hs =>
      Stmt.allExprs_iff.mp hacc s (List.mem_reverse.mp hs)⟩
  | t :: rest, hs, h, hacc => by
    rw [Parser.statements]
    split
    · exact ⟨suffix_tail h, Stmt.allExprs_iff.mpr fun s hs =>
        Stmt.allExprs_iff.mp hacc s (List.mem_reverse.mp hs)⟩
    · have hstmt := Finds.statement hP (t :: rest) h
      split
      · next s rest' more h' heq =>
        rw [heq] at hstmt
        have _lt : rest'.length ≤ rest.length := Nat.le_of_lt_succ h'
        exact Finds.statements hP brace (s :: acc) _ rest' (h'.within hs) hstmt.1
          ⟨hstmt.2, hacc⟩
      · next moved rest' more h' heq =>
        rw [heq] at hstmt
        have _lt := recover_shorter h'
        exact Finds.statements hP brace acc _ _ (recover_within h' hs)
          ((recover_suffix moved rest').trans hstmt) hacc
termination_by ts => 4 * ts.length + 2
decreasing_by all_goals omega

end

/-! Declarations. -/

theorem namedItem_leaves {keyword : Keyword} {nameContext endContext : String} (h : ts <:+ all) :
    (namedItem keyword nameContext endContext fin ts).Leaves all fun _ => True := by
  unfold namedItem
  refine .start (expect_leaves h) fun mark rest hr hrest _ => ?_
  refine .next (identifier_leaves hrest) fun name rest hr _ hrest hname => ?_
  exact .next (expect_leaves hrest) fun mark rest' _ _ hrest' _ => ⟨hrest', trivial⟩

theorem parametersTail_leaves {whole : List Token} (fin : Token) (acc : List Token) :
    (ts : List Token) → (hs : Shorter ts whole) → ts <:+ all →
    (parametersTail fin acc ts hs).Leaves all fun _ => True
  | [], hs, h => by
    rw [parametersTail]
    exact ⟨h, trivial⟩
  | t :: rest, hs, h => by
    rw [parametersTail]
    split
    · have hn : (identifier "for parameter name" fin rest).Leaves all fun _ => True :=
        identifier_leaves (suffix_tail h)
      split
      · next name rest' more h' heq =>
        rw [heq] at hn
        exact parametersTail_leaves fin (name :: acc) rest' (h'.behind hs) hn.1
      · next heq =>
        rw [heq] at hn
        exact hn
    · exact ⟨h, trivial⟩
termination_by ts => ts.length
decreasing_by all_goals (simp only [List.length_cons]; omega)

theorem finishParameters_leaves {function : Token} {names : List Token} (h : ts <:+ all) :
    (finishParameters function names fin ts).Leaves all fun _ => True := by
  unfold finishParameters
  exact .start (expect_leaves h) fun paren rest hr hrest _ => ⟨hrest, trivial⟩

theorem parameters_leaves {function : Token} (h : ts <:+ all) :
    (parameters function fin ts).Leaves all fun _ => True := by
  unfold parameters
  refine .start (expect_leaves h) fun mark rest hr hrest _ => ?_
  split
  · exact .last (finishParameters_leaves hrest)
  · refine .next (identifier_leaves hrest) fun name rest hr _ hrest _ => ?_
    refine .start (parametersTail_leaves fin [name] rest hr hrest) fun names rest hr hrest _ => ?_
    exact .last (finishParameters_leaves hrest)

theorem Finds.subroutine (hP : Finds fin all P) (h : ts <:+ all) :
    (subroutine fin ts).Leaves all (SubroutineOf.Exprs P) := by
  unfold Parser.subroutine
  refine .start (expect_leaves h) fun mark rest hr hrest _ => ?_
  refine .next (identifier_leaves hrest) fun name rest hr _ hrest _ => ?_
  refine .next (parameters_leaves hrest) fun names rest hr _ hrest _ => ?_
  exact .next (hP.block rest hrest) fun body rest' _ _ hrest' hbody => ⟨hrest', hbody⟩

theorem Finds.member (hP : Finds fin all P) {decl : ClassDecl} (h : ts <:+ all)
    (hd : decl.Exprs P) : (member fin decl ts).Leaves all (ClassDeclOf.Exprs P) := by
  unfold Parser.member
  split
  · exact .start (namedItem_leaves h) fun p rest _ hrest _ => ⟨hrest, hd⟩
  · exact .start (hP.subroutine h) fun m rest _ hrest hm =>
      ⟨hrest, List.forall_mem_cons.mpr ⟨hm, hd⟩⟩
  · exact h

theorem Finds.members {whole : List Token} (hP : Finds fin all P) (decl : ClassDecl)
    (notes : List Diagnostic) : (ts : List Token) → (hs : Shorter ts whole) → ts <:+ all →
    decl.Exprs P → (members fin decl notes ts hs).Leaves all (ClassDeclOf.Exprs P)
  | [], hs, h, hd => by
    rw [Parser.members]
    exact ⟨h, fun m hm => hd m (List.mem_reverse.mp hm)⟩
  | t :: rest, hs, h, hd => by
    rw [Parser.members]
    split
    · exact ⟨suffix_tail h, fun m hm => hd m (List.mem_reverse.mp hm)⟩
    · have hm : (Parser.member fin decl (t :: rest)).Leaves all _ := hP.member h hd
      split
      · next d rest' more h' heq =>
        rw [heq] at hm
        exact Finds.members hP d _ rest' (h'.within hs) hm.1 hm.2
      · next moved rest' more h' heq =>
        rw [heq] at hm
        have _lt := recover_shorter h'
        exact Finds.members hP decl _ _ (recover_within h' hs)
          ((recover_suffix moved rest').trans hm) hd
termination_by ts => ts.length
decreasing_by all_goals omega

theorem classHead_leaves (h : ts <:+ all) : (classHead fin ts).Leaves all fun _ => True := by
  have opened (base : Option Token) (ts : List Token) (h : ts <:+ all) :
      ((expect .leftBrace "before class body" fin ts).start fun _ rest hr =>
        Reply.done base rest [] hr).Leaves all fun _ => True :=
    .start (expect_leaves h) fun mark rest _ hrest _ => ⟨hrest, trivial⟩
  unfold classHead
  simp only
  split
  · exact opened none [] h
  · next t rest =>
    split
    · exact .next (identifier_leaves (suffix_tail h)) fun base rest _ _ hrest _ =>
        .last (opened (some base) rest hrest)
    · exact opened none (t :: rest) h

theorem Finds.classDeclaration (hP : Finds fin all P) (h : ts <:+ all) :
    (classDeclaration fin ts).Leaves all (ClassDeclOf.Exprs P) := by
  unfold Parser.classDeclaration
  refine .start (expect_leaves h) fun mark rest hr hrest _ => ?_
  refine .next (identifier_leaves hrest) fun name rest hr _ hrest _ => ?_
  refine .next (classHead_leaves hrest) fun base rest hr _ hrest _ => ?_
  exact hP.members ⟨name, base, [], []⟩ [] rest hr hrest (List.forall_mem_nil _)

theorem Finds.declaration (hP : Finds fin all P) {u : SourceUnit} (h : ts <:+ all)
    (hu : u.Exprs P) : (declaration fin u ts).Leaves all (SourceUnit.Exprs P) := by
  unfold Parser.declaration
  split
  · exact .start (namedItem_leaves h) fun g rest _ hrest _ => ⟨hrest, hu.functions, hu.classes⟩
  · exact .start (hP.subroutine h) fun f rest _ hrest hf =>
      ⟨hrest, List.forall_mem_cons.mpr ⟨hf, hu.functions⟩, hu.classes⟩
  · exact .start (hP.classDeclaration h) fun c rest _ hrest hc =>
      ⟨hrest, hu.functions, List.forall_mem_cons.mpr ⟨hc, hu.classes⟩⟩
  · exact h

/-- What is found wherever an expression is read holds of all expressions of a unit. -/
theorem Finds.declarations (hP : Finds fin all P) (u : SourceUnit) (notes : List Diagnostic) :
    (ts : List Token) → ts <:+ all → u.Exprs P → (declarations fin u notes ts).1.Exprs P
  | [], h, hu => by
    rw [Parser.declarations]
    exact ⟨fun f hf => hu.functions f (List.mem_reverse.mp hf),
      fun c hc => hu.classes c (List.mem_reverse.mp hc)⟩
  | t :: rest, h, hu => by
    have hd : (Parser.declaration fin u (t :: rest)).Leaves all _ := hP.declaration h hu
    rw [Parser.declarations]
    split
    · next u' rest' more _lt heq =>
      rw [heq] at hd
      exact Finds.declarations hP u' _ rest' hd.1 hd.2
    · next moved rest' more h' heq =>
      rw [heq] at hd
      have _lt := recover_shorter h'
      exact Finds.declarations hP u _ _ ((recover_suffix moved rest').trans hd) hu
termination_by ts => ts.length
decreasing_by all_goals omega

/-- Expressions are placed in a row of tokens wherever they are read. -/
theorem finds_placed {source : String} (h : Row source all) (fin : Token) :
    Finds fin all fun e => ∃ us, us <:+: all ∧ e.Placed source us := by
  intro ts hts
  have hplaced := expression_placed (h.part hts.isInfix) fin
  have hcontained := expression_contained fin ts
  cases hreply : expression fin ts with
  | done e rest notes hs =>
    rw [hreply] at hplaced
    obtain ⟨taken, htaken, he⟩ := hplaced
    have hprefix : taken <+: ts := htaken ▸ List.prefix_append _ _
    have hsuffix : rest <:+ ts := htaken ▸ List.suffix_append _ _
    exact ⟨hsuffix.trans hts, taken, hprefix.isInfix.trans hts.isInfix, he⟩
  | gaveUp moved rest notes hs =>
    rw [hreply] at hcontained
    obtain ⟨⟨taken, -, htaken, -⟩, -⟩ := hcontained
    exact (htaken ▸ List.suffix_append _ _ : rest <:+ ts).trans hts

end Parser

def TokenStream.ofText (source : String) (file : Option String) (keepTrivia : Bool) : TokenStream :=
  ofTokens (scan source file keepTrivia).1

/-- An expression that is read anywhere in the scan of a text, on its own or in the unit of the
text, and each of its parts, is placed in the text: its span starts and stops among the tokens that
it is read from, covers all spans and tokens below it, and tells the line that it starts on. -/
theorem TokenStream.expressions_placed (source : String) (file : Option String)
    (keepTrivia : Bool) (k : Nat) :
    (Parser.expression (ofText source file keepTrivia).fin
        ((ofText source file keepTrivia).rest.drop k)).Consumes
      ((ofText source file keepTrivia).rest.drop k) (Expr.Placed source) ∧
    (ofText source file keepTrivia).parse.1.Exprs fun e =>
      ∃ us, us <:+: (ofText source file keepTrivia).rest ∧ e.Placed source us := by
  generalize hs : ofText source file keepTrivia = s
  have hrow : Row source s.rest := hs ▸ TokenStream.row (scan_row source file keepTrivia)
  refine ⟨Parser.expression_placed (hrow.part (List.drop_suffix k _).isInfix) s.fin, ?_⟩
  exact (Parser.finds_placed hrow s.fin).declarations _ [] s.rest (List.suffix_refl _)
    ⟨List.forall_mem_nil _, List.forall_mem_nil _⟩

end Lss
