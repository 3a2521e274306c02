import Mathlib.Data.List.TakeWhile
import Lss.Proofs.WalkedExpr

/-!
# Units by position

Loops over statements, members and declarations go on after every failure, and each of their turns
takes a token: what fails behind what it has taken has moved already, and what fails in front of a
keyword or a brace, where skipping stays, has one token dropped. So a walk over a whole unit comes
to the end mark, with the unit and the complaints that the parser gives.
-/
namespace Lss

open Extent

namespace Walk

/-! Statements, which may call expressions as deep as the tokens are long. -/

def varStatement (n : Nat) : Walk Stmt := do
  let _ ← advance
  let name ← identifier "after 'var'"
  let t ← peek
  if t.kind = .assign then
    let _ ← advance
    let e ← expression n
    let _ ← consume .semicolon "after variable declaration"
    pure (.var name (some e))
  else
    let _ ← consume .semicolon "after variable declaration"
    pure (.var name none)

def returnStatement (n : Nat) : Walk Stmt := do
  let keyword ← advance
  let t ← peek
  if t.kind = .semicolon then
    let mark ← consume .semicolon "after return value"
    pure (.return_ none (keyword.span + mark.span))
  else
    let e ← expression n
    let mark ← consume .semicolon "after return value"
    pure (.return_ (some e) (keyword.span + mark.span))

def expressionStatement (n : Nat) : Walk Stmt := do
  let e ← expression n
  let t ← peek
  if t.kind = .assign then
    let _ ← advance
    let value ← expression n
    let _ ← consume .semicolon "after assignment"
    pure (.assign e value)
  else
    let _ ← consume .semicolon "after expression"
    pure (.expr e)

def parenthesized (n : Nat) (opening closing : String) : Walk Expr := do
  let _ ← consume .leftParen opening
  let inner ← closed n .rightParen closing
  pure inner.1

def iteration (n : Nat) : Walk (Token × Expr) := do
  let _ ← consume .leftParen "after 'foreach'"
  let x ← identifier "for loop variable"
  let _ ← consume (.keyword .in_) "after loop variable"
  let inner ← closed n .rightParen "after collection"
  pure (x, inner.1)

def repetition (n : Nat) : Walk Expr := do
  let _ ← consume (.keyword .while_) "after 'do' body"
  let c ← parenthesized n "after 'while'" "after loop condition"
  let _ ← consume .semicolon "after 'do ... while'"
  pure c

mutual

def statement : Nat → Walk Stmt
  | 0 => stray .unfinished
  | n + 1 => do
    let t ← peek
    match t.kind with
    | .leftBrace =>
      let b ← block n
      pure (.block b)
    | .keyword .var => varStatement n
    | .keyword .return_ => returnStatement n
    | .keyword .if_ => ifStatement n
    | .keyword .while_ => whileStatement n
    | .keyword .do_ => doStatement n
    | .keyword .foreach => foreachStatement n
    | .keyword .function | .keyword .class_ | .keyword .property | .keyword .global =>
      let t ← advance
      note ((ParseFault.misplacedDeclaration t.kind).at_ t)
      giveUp
    | _ => expressionStatement n

def ifStatement : Nat → Walk Stmt
  | 0 => stray .unfinished
  | n + 1 => do
    let keyword ← advance
    let c ← parenthesized n "after 'if'" "after if condition"
    let body ← statement n
    let t ← peek
    if t.kind = .keyword .else_ then
      let t ← advance
      let arm ← statement n
      pure (.if_ (some c) body (some (.if_ none arm none (t.span + arm.span)))
        (keyword.span + body.span + (t.span + arm.span)))
    else pure (.if_ (some c) body none (keyword.span + body.span))

def whileStatement : Nat → Walk Stmt
  | 0 => stray .unfinished
  | n + 1 => do
    let _ ← advance
    let c ← parenthesized n "after 'while'" "after loop condition"
    let body ← statement n
    pure (.while_ c body)

def doStatement : Nat → Walk Stmt
  | 0 => stray .unfinished
  | n + 1 => do
    let _ ← advance
    let body ← statement n
    let c ← repetition n
    pure (.doWhile body c)

def foreachStatement : Nat → Walk Stmt
  | 0 => stray .unfinished
  | n + 1 => do
    let _ ← advance
    let head ← iteration n
    let body ← statement n
    pure (.foreach head.1 head.2 body)

def block : Nat → Walk Block
  | 0 => stray .unfinished
  | n + 1 => do
    let brace ← consume .leftBrace "to open a block"
    statements n brace []

/-- Statements up to the closing brace; `acc` holds earlier ones in reverse. -/
def statements : Nat → Token → List Stmt → Walk Block
  | 0, _, _ => stray .unfinished
  | n + 1, brace, acc => do
    let t ← peek
    if t.kind = .rightBrace ∨ t.kind = .eof then
      let close ← closeBrace "to close the block"
      pure ⟨acc.reverse, brace.span + close⟩
    else
      let s ← turn n (statement n)
      statements n brace (s.toList ++ acc)

end

/-! Declarations. -/

def namedItem (nameContext endContext : String) : Walk Token := do
  let _ ← advance
  let name ← identifier nameContext
  let _ ← consume .semicolon endContext
  pure name

def finishParameters (function : Token) (names : List Token) : Walk (List Token) := do
  let paren ← consume .rightParen "after parameters"
  noteWhen (ParseFault.maxArguments < names.length)
    ((ParseFault.tooManyParameters function.text).at_ paren)
  pure names

def parametersTail : Nat → List Token → Walk (List Token)
  | 0, _ => stray .unfinished
  | n + 1, acc => do
    let t ← peek
    if t.kind = .comma then
      let _ ← advance
      let name ← identifier "for parameter name"
      parametersTail n (name :: acc)
    else pure acc.reverse

def parameters (n : Nat) (function : Token) : Walk (List Token) := do
  let _ ← consume .leftParen "after function name"
  let t ← peek
  if t.kind = .rightParen then finishParameters function []
  else
    let name ← identifier "for parameter name"
    let names ← parametersTail n [name]
    finishParameters function names

def subroutine (n : Nat) : Walk Subroutine := do
  let _ ← consume (.keyword .function) ""
  let name ← identifier "for function name"
  let names ← parameters n name
  let body ← block n
  pure ⟨name, names, body⟩

def member (n : Nat) (decl : ClassDecl) : Walk ClassDecl := do
  let t ← peek
  match t.kind with
  | .keyword .property =>
    let p ← namedItem "for property name" "after property declaration"
    pure { decl with properties := p :: decl.properties }
  | .keyword .function =>
    let m ← subroutine n
    pure { decl with methods := m :: decl.methods }
  | _ => fail .expectedClassMember

def members : Nat → ClassDecl → Walk ClassDecl
  | 0, _ => stray .unfinished
  | n + 1, decl => do
    let t ← peek
    if t.kind = .rightBrace ∨ t.kind = .eof then
      let _ ← closeBrace "after class body"
      pure (Parser.finishClass decl)
    else
      let next ← turn n (member n decl)
      members n (next.getD decl)

def classHead : Walk (Option Token) := do
  let t ← peek
  if t.kind = .colon then
    let _ ← advance
    let base ← identifier "for base class name"
    let _ ← consume .leftBrace "before class body"
    pure (some base)
  else
    let _ ← consume .leftBrace "before class body"
    pure none

def classDeclaration (n : Nat) : Walk ClassDecl := do
  let _ ← advance
  let name ← identifier "for class name"
  let base ← classHead
  members n ⟨name, base, [], []⟩

def declaration (n : Nat) (u : SourceUnit) : Walk SourceUnit := do
  let t ← peek
  match t.kind with
  | .keyword .global =>
    let g ← namedItem "after 'global'" "after global declaration"
    pure { u with globals := g :: u.globals }
  | .keyword .function =>
    let f ← subroutine n
    pure { u with functions := f :: u.functions }
  | .keyword .class_ =>
    let c ← classDeclaration n
    pure { u with classes := c :: u.classes }
  | _ => fail .expectedDeclaration

def declarations : Nat → SourceUnit → Walk SourceUnit
  | 0, _ => stray .unfinished
  | n + 1, u => do
    let t ← peek
    if t.kind = .eof then pure (Parser.finishUnit u)
    else
      let next ← turn n (declaration n u)
      declarations n (next.getD u)

def calls : Walk Nat := do
  let s ← get
  pure (8 * s.tokens.size + 2)

def unit : Walk SourceUnit := do
  let t ← peek
  let n ← calls
  declarations n { file := t.span.file }

variable {X : Extent}

theorem parenthesized_tracks {n : Nat} {opening closing : String} {ts : List Token}
    (hn : 8 * ts.length < n) : X.Tracks [] ts (parenthesized n opening closing)
      (Parser.parenthesized opening closing X.fin ts) :=
  .start (consume_tracks (by decide)) fun _ rest h =>
    .next (closed_tracks n _ _ (by decide) rest (by omega))
      fun inner rest' h' _ => .done _ h'

theorem iteration_tracks {n : Nat} {ts : List Token} (hn : 8 * ts.length < n) :
    X.Tracks [] ts (iteration n) (Parser.iteration X.fin ts) :=
  .start (consume_tracks (by decide)) fun _ rest h =>
    .next identifier_tracks fun x rest h _ =>
      .next (consume_tracks (by decide)) fun _ rest h _ =>
        .next (closed_tracks n _ _ (by decide) rest (by omega))
          fun inner rest h _ => .done _ h

theorem repetition_tracks {n : Nat} {ts : List Token} (hn : 8 * ts.length < n) :
    X.Tracks [] ts (repetition n) (Parser.repetition X.fin ts) :=
  .start (consume_tracks (by decide)) fun _ rest h =>
    .next (parenthesized_tracks (by omega)) fun c rest h _ =>
      .next (consume_tracks (by decide)) fun _ rest h _ => .done _ h

theorem varStatement_tracks {n : Nat} {t : Token} {ts : List Token} (hn : 8 * ts.length + 5 < n) :
    X.Tracks [] (t :: ts) (varStatement n)
      ((Parser.varStatement X.fin ts).last (.tail t ts)) := by
  refine .advance (.last (.start identifier_tracks fun name rest h => .peek ?_))
  cases rest with
  | nil =>
    rw [List.headD_nil, if_neg (fin_ne (by decide))]
    exact .next (consume_tracks (by decide)) fun _ rest h _ => .done _ h
  | cons t rest =>
    have hlt := h.of_cons
    dsimp only
    rw [List.headD_cons]
    split
    · exact .advance (.next (expression_tracks n rest (by omega)) fun e rest h _ =>
          .next (consume_tracks (by decide)) fun _ rest h _ => .done _ h)
    · exact .next (consume_tracks (by decide)) fun _ rest h _ => .done _ h

theorem returnStatement_tracks {n : Nat} {t : Token} {ts : List Token}
    (hn : 8 * ts.length + 5 < n) : X.Tracks [] (t :: ts) (returnStatement n)
      ((Parser.returnStatement X.fin t ts).last (.tail t ts)) := by
  refine .advance (.last (.peek ?_))
  rw [Parser.returnStatement, Parser.peek]
  split
  · exact .start (consume_tracks (by decide)) fun _ rest h => .done _ h
  · exact .start (expression_tracks n ts hn) fun e rest h =>
      .next (consume_tracks (by decide)) fun _ rest h _ => .done _ h

theorem expressionStatement_tracks {n : Nat} {ts : List Token} (hn : 8 * ts.length + 5 < n) :
    X.Tracks [] ts (expressionStatement n) (Parser.expressionStatement X.fin ts) := by
  refine .start (expression_tracks n ts hn) fun e rest h => .peek ?_
  cases rest with
  | nil =>
    rw [List.headD_nil, if_neg (fin_ne (by decide))]
    exact .next (consume_tracks (by decide)) fun _ rest h _ => .done _ h
  | cons t rest =>
    have hlt := h.of_cons
    dsimp only
    rw [List.headD_cons]
    split
    · exact .advance (.next (expression_tracks n rest (by omega)) fun value rest h _ =>
          .next (consume_tracks (by decide)) fun _ rest h _ => .done _ h)
    · exact .next (consume_tracks (by decide)) fun _ rest h _ => .done _ h

mutual

theorem statement_tracks : ∀ (n : Nat) (ts : List Token), 8 * ts.length + 8 < n →
    X.Tracks [] ts (statement n) (Parser.statement X.fin ts)
  | n + 1, [], hn => by
    refine .peek ?_
    rw [Parser.statement]
    simp only [List.headD_nil, X.closes]
    exact expressionStatement_tracks (by rw [List.length_nil]; omega)
  | n + 1, t :: rest, hn => by
    refine .peek ?_
    rw [Parser.statement, List.headD_cons]
    rw [List.length_cons] at hn
    have hplain : X.Tracks [] (t :: rest) (expressionStatement n)
        (Parser.expressionStatement X.fin (t :: rest)) :=
      expressionStatement_tracks (by rw [List.length_cons]; omega)
    have hmisplaced : X.Tracks [] (t :: rest) (do
        let t ← advance
        note ((ParseFault.misplacedDeclaration t.kind).at_ t)
        giveUp)
        (.gaveUp true rest [(ParseFault.misplacedDeclaration t.kind).at_ t]
          (Shorter.moved_tail t rest) : Reply Stmt (t :: rest)) :=
      fun hss => ⟨Parser.suffix_tail hss, nofun,
        (Reaches.advance hss).bind ((Reaches.note _).bind .giveUp)⟩
    generalize hkind : t.kind = kind at hmisplaced
    cases kind with
    | leftBrace =>
      exact .start (block_tracks n (t :: rest) (by rw [List.length_cons]; omega)) fun b rest h =>
        .done _ h
    | keyword k =>
      cases k with
      | var => exact varStatement_tracks (by omega)
      | return_ => exact returnStatement_tracks (by omega)
      | if_ => exact ifStatement_tracks n t rest (by omega)
      | while_ => exact whileStatement_tracks n t rest (by omega)
      | do_ => exact doStatement_tracks n t rest (by omega)
      | foreach => exact foreachStatement_tracks n t rest (by omega)
      | function | class_ | property | global => exact hmisplaced
      | _ => exact hplain
    | _ => exact hplain

theorem ifStatement_tracks : ∀ (n : Nat) (t : Token) (ts : List Token), 8 * ts.length + 9 < n →
    X.Tracks [] (t :: ts) (ifStatement n) ((Parser.ifStatement X.fin t ts).last (.tail t ts))
  | n + 1, t, ts, hn => by
    rw [Parser.ifStatement]
    refine .advance (.last (.start (parenthesized_tracks (by omega)) fun c rest h => ?_))
    refine .next (statement_tracks n rest (by omega)) fun body rest h _ => .peek ?_
    cases rest with
    | nil =>
      rw [List.headD_nil, if_neg (fin_ne (by decide))]
      exact .done _ h
    | cons t rest =>
      have hlt := h.of_cons
      dsimp only
      rw [List.headD_cons]
      split
      · exact .advance (.next (statement_tracks n rest (by omega)) fun arm rest h _ => .done _ h)
      · exact .done _ h

theorem whileStatement_tracks : ∀ (n : Nat) (t : Token) (ts : List Token),
    8 * ts.length + 9 < n →
    X.Tracks [] (t :: ts) (whileStatement n) ((Parser.whileStatement X.fin ts).last (.tail t ts))
  | n + 1, t, ts, hn => by
    rw [Parser.whileStatement]
    refine .advance (.last (.start (parenthesized_tracks (by omega)) fun c rest h => ?_))
    exact .next (statement_tracks n rest (by omega)) fun body rest h _ => .done _ h

theorem doStatement_tracks : ∀ (n : Nat) (t : Token) (ts : List Token), 8 * ts.length + 9 < n →
    X.Tracks [] (t :: ts) (doStatement n) ((Parser.doStatement X.fin ts).last (.tail t ts))
  | n + 1, t, ts, hn => by
    rw [Parser.doStatement]
    refine .advance (.last (.start (statement_tracks n ts (by omega)) fun body rest h => ?_))
    exact .next (repetition_tracks (by omega)) fun c rest h _ => .done _ h

theorem foreachStatement_tracks : ∀ (n : Nat) (t : Token) (ts : List Token),
    8 * ts.length + 9 < n →
    X.Tracks [] (t :: ts) (foreachStatement n)
      ((Parser.foreachStatement X.fin ts).last (.tail t ts))
  | n + 1, t, ts, hn => by
    rw [Parser.foreachStatement]
    refine .advance (.last (.start (iteration_tracks (by omega)) fun head rest h => ?_))
    exact .next (statement_tracks n rest (by omega)) fun body rest h _ => .done _ h

theorem block_tracks : ∀ (n : Nat) (ts : List Token), 8 * ts.length + 7 < n →
    X.Tracks [] ts (block n) (Parser.block X.fin ts)
  | n + 1, ts, hn => by
    rw [Parser.block]
    refine .start (consume_tracks (by decide)) fun brace rest h => ?_
    exact statements_tracks n brace [] [] rest h (by omega)

theorem statements_tracks {all : List Token} : ∀ (n : Nat) (brace : Token) (acc : List Stmt)
    (notes : List Diagnostic) (ts : List Token) (h : Shorter ts all), 8 * ts.length + 9 < n →
    X.Tracks notes.reverse ts (statements n brace acc)
      (Parser.statements X.fin brace acc notes ts h)
  | n + 1, brace, acc, notes, [], h, hn => by
    refine .peek ?_
    rw [Parser.statements, List.headD_nil, if_pos (.inr X.closes)]
    exact .behind closeBrace_nil List.nil_suffix (.done _ h)
  | n + 1, brace, acc, notes, t :: rest, h, hn => by
    refine .peek (.given fun hss => ?_)
    have heof := X.inner t (hss.subset List.mem_cons_self)
    rw [Parser.statements, List.headD_cons]
    by_cases hbrace : t.kind = .rightBrace
    · rw [if_pos hbrace, if_pos (.inl hbrace)]
      exact .behind (closeBrace_cons hbrace hss) (Parser.suffix_tail hss) (.done _ _)
    · rw [if_neg hbrace, if_neg (not_or.mpr ⟨hbrace, heof⟩)]
      -- what comes next is behind this token, whether or not a statement was read
      refine turn_tracks (by omega) (statement_tracks n (t :: rest) (by omega))
        (fun s rest' more h' hr => ?_) fun moved rest' more h' hr => ?_
      · rw [hr]
        exact statements_tracks n brace (s :: acc) _ rest' _ (by omega)
      · rw [hr]
        have hshorter := Parser.recover_shorter h'
        exact statements_tracks n brace acc _ _ _ (by omega)

end

/-! Declarations. -/

/-- The keyword has been looked at, so it is taken without another look. -/
theorem namedItem_tracks {keyword : Keyword} {nameContext endContext : String} {t : Token}
    {ts : List Token} (h : t.kind = .keyword keyword) :
    X.Tracks [] (t :: ts) (namedItem nameContext endContext)
      (Parser.namedItem keyword nameContext endContext X.fin (t :: ts)) :=
  .start (advance_tracks h) fun _ rest h =>
    .next identifier_tracks fun name rest h _ =>
      .next (consume_tracks (by decide)) fun _ rest h _ => .done _ h

theorem finishParameters_tracks {function : Token} {names ts : List Token} :
    X.Tracks [] ts (finishParameters function names)
      (Parser.finishParameters function names X.fin ts) := by
  refine .start (consume_tracks (by decide)) fun paren rest h => .noteWhen _ _ ?_
  simp only [decide_eq_true_eq, List.nil_append]
  exact .done names h

theorem parametersTail_tracks {all : List Token} : ∀ (n : Nat) (acc ts : List Token)
    (h : Shorter ts all), ts.length < n →
    X.Tracks [] ts (parametersTail n acc) (Parser.parametersTail X.fin acc ts h)
  | n + 1, acc, [], h, hn => by
    refine .peek ?_
    rw [Parser.parametersTail, List.headD_nil, if_neg (fin_ne (by decide))]
    exact .done _ h
  | n + 1, acc, t :: rest, h, hn => by
    refine .peek ?_
    rw [Parser.parametersTail, List.headD_cons]
    rw [List.length_cons] at hn
    split
    · refine .advance (.onward identifier_tracks (fun name rest' more h' hr => ?_)
        fun _ _ _ _ hr => ⟨_, by rw [hr]; rfl⟩)
      rw [hr, Parser.identifier_quiet hr]
      exact parametersTail_tracks n (name :: acc) rest' _ (by omega)
    · exact .done _ h

theorem parameters_tracks {n : Nat} {function : Token} {ts : List Token} (hn : ts.length < n) :
    X.Tracks [] ts (parameters n function) (Parser.parameters function X.fin ts) := by
  refine .start (consume_tracks (by decide)) fun _ rest h => .peek ?_
  rw [Parser.peek]
  split
  · exact .last finishParameters_tracks
  · exact .next identifier_tracks fun name rest' h' _ =>
      .start (parametersTail_tracks n [name] rest' _ (by omega))
        fun names rest'' h'' => .last finishParameters_tracks

theorem subroutine_tracks {n : Nat} {ts : List Token} (hn : 8 * ts.length < n) :
    X.Tracks [] ts (subroutine n) (Parser.subroutine X.fin ts) :=
  .start (consume_tracks (by decide)) fun _ rest h =>
    .next identifier_tracks fun name rest h _ =>
      .next (parameters_tracks (by omega)) fun names rest h _ =>
        .next (block_tracks n rest (by omega)) fun body rest h _ =>
          .done _ h

theorem member_tracks {n : Nat} {decl : ClassDecl} {ts : List Token} (hn : 8 * ts.length < n) :
    X.Tracks [] ts (member n decl) (Parser.member X.fin decl ts) := by
  refine .peek ?_
  rw [Parser.member, Parser.peek]
  cases ts with
  | nil =>
    simp only [List.headD_nil, X.closes]
    exact .fail _
  | cons t rest =>
    rw [List.headD_cons]
    have hsubroutine := subroutine_tracks (X := X) hn
    generalize hkind : t.kind = kind
    cases kind with
    | keyword k =>
      cases k with
      | property => exact .start (namedItem_tracks hkind) fun p rest h => .done _ h
      | function => exact .start hsubroutine fun m rest h => .done _ h
      | _ => exact .fail _
    | _ => exact .fail _

theorem members_tracks {all ts : List Token} {n : Nat} {decl : ClassDecl}
    (notes : List Diagnostic) (h : Shorter ts all) (hn : 8 * ts.length + 1 < n) :
    X.Tracks notes.reverse ts (members n decl) (Parser.members X.fin decl notes ts h) := by
  induction n generalizing decl notes ts with
  | zero => exact absurd hn (Nat.not_lt_zero _)
  | succ n ih =>
    refine .peek (.given fun hss => ?_)
    cases ts with
    | nil =>
      rw [Parser.members, List.headD_nil, if_pos (.inr X.closes)]
      exact .behind closeBrace_nil hss (.done _ h)
    | cons t rest =>
      have heof := X.inner t (hss.subset List.mem_cons_self)
      rw [Parser.members, List.headD_cons]
      by_cases hbrace : t.kind = .rightBrace
      · rw [if_pos hbrace, if_pos (.inl hbrace)]
        exact .behind (closeBrace_cons hbrace hss) (Parser.suffix_tail hss) (.done _ _)
      · rw [if_neg hbrace, if_neg (not_or.mpr ⟨hbrace, heof⟩)]
        refine turn_tracks (by omega) (member_tracks (by omega))
          (fun next rest' more h' hr => ?_) fun moved rest' more h' hr => ?_
        · rw [hr]
          exact ih _ _ (by omega)
        · rw [hr]
          have hshorter := Parser.recover_shorter h'
          exact ih _ _ (by omega)

theorem classHead_tracks {ts : List Token} :
    X.Tracks [] ts classHead (Parser.classHead X.fin ts) := by
  refine .peek ?_
  cases ts with
  | nil =>
    rw [List.headD_nil, if_neg (fin_ne (by decide))]
    exact .start (consume_tracks (by decide)) fun _ rest h => .done _ h
  | cons t rest =>
    rw [List.headD_cons, Parser.classHead]
    split
    · exact .advance (.next identifier_tracks fun base rest h _ =>
        .last (.start (consume_tracks (by decide)) fun _ rest h => .done _ h))
    · exact .start (consume_tracks (by decide)) fun _ rest h => .done _ h

theorem classDeclaration_tracks {n : Nat} {t : Token} {ts : List Token}
    (hn : 8 * ts.length + 1 < n) (hkind : t.kind = .keyword .class_) :
    X.Tracks [] (t :: ts) (classDeclaration n) (Parser.classDeclaration X.fin (t :: ts)) := by
  refine .start (advance_tracks hkind) fun _ rest h => ?_
  have hlt : rest.length < (t :: ts).length := h
  rw [List.length_cons] at hlt
  exact .next identifier_tracks fun name rest h _ =>
    .next classHead_tracks fun base rest h _ =>
      members_tracks [] h (by omega)

theorem declaration_tracks {n : Nat} {u : SourceUnit} {ts : List Token} (hn : 8 * ts.length < n) :
    X.Tracks [] ts (declaration n u) (Parser.declaration X.fin u ts) := by
  refine .peek ?_
  rw [Parser.declaration, Parser.peek]
  cases ts with
  | nil =>
    simp only [List.headD_nil, X.closes]
    exact .fail _
  | cons t rest =>
    rw [List.headD_cons]
    have hsubroutine := subroutine_tracks (X := X) hn
    rw [List.length_cons] at hn
    generalize hkind : t.kind = kind
    cases kind with
    | keyword k =>
      cases k with
      | global => exact .start (namedItem_tracks hkind) fun g rest h => .done _ h
      | function => exact .start hsubroutine fun f rest h => .done _ h
      | class_ =>
        exact .start (classDeclaration_tracks (by omega) hkind) fun c rest h => .done _ h
      | _ => exact .fail _
    | _ => exact .fail _

/-- A walk over declarations comes to the end. -/
theorem declarations_reaches (n : Nat) (u : SourceUnit) (notes : List Diagnostic) (ts : List Token)
    (hn : 8 * ts.length + 1 < n) (hts : ts <:+ X.body) :
    X.Reaches notes.reverse ts (declarations n u) (.ok (Parser.declarations X.fin u notes ts).1) []
      (Parser.declarations X.fin u notes ts).2 := by
  induction n generalizing u notes ts with
  | zero => exact absurd hn (Nat.not_lt_zero _)
  | succ n ih =>
    refine (Reaches.peek hts).bind ?_
    cases ts with
    | nil =>
      rw [Parser.declarations, List.headD_nil, if_pos X.closes]
      exact .pure _
    | cons t rest =>
      have hx : X.Tracks [] (t :: rest) (declaration n u)
          (Parser.declaration X.fin u (t :: rest)) := declaration_tracks (by omega)
      rw [Parser.declarations, List.headD_cons, if_neg (X.inner t (hts.subset List.mem_cons_self))]
      split
      · next next rest' more h' hr =>
        rw [hr] at hx
        have hafter := ih next (more.reverse ++ notes) rest'
          (by omega) (hx hts).1
        rw [List.reverse_append, List.reverse_reverse] at hafter
        exact (turn_done hx hts).bind hafter
      · next moved rest' more h' hr =>
        rw [hr] at hx
        have hshorter := Parser.recover_shorter h'
        have hafter := ih u (more.reverse ++ notes) (Parser.recover moved rest')
          (by omega)
          ((Parser.recover_suffix moved rest').trans (hx hts).1)
        rw [List.reverse_append, List.reverse_reverse] at hafter
        exact (turn_gaveUp (by omega) hx hts).bind hafter

theorem unit_reaches : X.Reaches [] X.body unit
    (.ok (Parser.declarations X.fin { file := (X.body.headD X.fin).span.file } [] X.body).1) []
    (Parser.declarations X.fin { file := (X.body.headD X.fin).span.file } [] X.body).2 := by
  have hcalls : X.Reaches [] X.body calls (.ok (8 * X.tokens.size + 2)) X.body [] :=
    fun _ turns => ⟨[], by rw [List.append_nil turns]; rfl, by simp⟩
  have hsize := X.starts.length_le
  rw [List.length_append, List.length_singleton, Array.length_toList] at hsize
  exact (Reaches.peek (List.suffix_refl _)).bind (hcalls.bind
    (declarations_reaches _ _ [] X.body (by omega) (List.suffix_refl _)))

end Walk

/-! Whole token lists. -/

namespace TokenStream

/-- All significant tokens, with an end mark behind the last one where it is none. -/
def vector (tokens : List Token) : Array Token :=
  let kept := tokens.filter fun t => !t.kind.isTrivia
  if kept.getLast?.any (·.kind = .eof) then kept.toArray
  else kept.toArray.push ⟨.eof, "", (kept.getLast?.map (·.span)).getD .synthetic⟩

theorem vector_starts (tokens : List Token) :
    (ofTokens tokens).rest ++ [(ofTokens tokens).fin] <+: (vector tokens).toList := by
  unfold ofTokens vector
  dsimp only
  generalize (tokens.filter fun t => !t.kind.isTrivia) = kept
  cases hfind : kept.find? fun t => t.kind == .eof with
  | some e =>
    obtain ⟨he, before, later, hkept, hbefore⟩ := List.find?_eq_some_iff_append.mp hfind
    have hstarts : kept.takeWhile (fun t => !(t.kind == .eof)) ++ [e] <+: kept := by
      rw [hkept, List.takeWhile_append_of_pos hbefore, List.takeWhile_cons_of_neg (by simp [he]),
        List.append_nil]
      exact ⟨later, by simp⟩
    split
    · exact hstarts
    · rw [Array.toList_push]
      exact hstarts.trans (List.prefix_append _ _)
  | none =>
    rw [List.find?_eq_none] at hfind
    rw [if_neg, Array.toList_push, List.takeWhile_eq_self_iff.mpr (by simpa using hfind)]
    · exact List.prefix_refl _
    · intro hlast
      obtain ⟨t, ht, heof⟩ := (Option.any_eq_true _ _).mp hlast
      exact hfind t (List.mem_of_getLast? ht) (by simpa using heof)

def extent (tokens : List Token) : Extent where
  tokens := vector tokens
  body := (ofTokens tokens).rest
  fin := (ofTokens tokens).fin
  starts := vector_starts tokens
  inner t ht := by
    simpa using List.all_eq_true.mp List.all_takeWhile t ht
  closes := by
    unfold ofTokens
    dsimp only
    cases h : (tokens.filter fun t => !t.kind.isTrivia).find? fun t => t.kind == .eof with
    | none => rfl
    | some e => simpa using List.find?_some h

end TokenStream

/-- For any tokens, a walk over the array of them reads nothing outside it, and each turn of a loop
over statements, members or declarations ends behind where it began. It ends in front of an end
mark, with the unit and the complaints of the parser. -/
theorem Walk.unit_progresses (tokens : List Token) : ∃ u s t,
    Walk.unit.run.run ⟨TokenStream.vector tokens, 0, [], []⟩ = .ok (.ok u, s) ∧
    s.tokens = TokenStream.vector tokens ∧
    (u, s.notes) = SourceUnit.ofTokens tokens ∧
    (∀ turn ∈ s.turns, turn.1 < turn.2) ∧
    s.tokens[s.current]? = some t ∧ t.kind = .eof := by
  obtain ⟨more, hrun, hmore⟩ := Walk.unit_reaches (X := TokenStream.extent tokens) [] []
  rw [Extent.cursor, Nat.sub_self] at hrun
  exact ⟨_, _, _, hrun, rfl, rfl, hmore, Extent.getElem?_cursor List.nil_suffix,
    (TokenStream.extent tokens).closes⟩

end Lss
