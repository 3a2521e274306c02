import Lss.Tree.Parser.Expr

/-!
Statements:

    statement → block | var | if | while | do | foreach | return | expression ("=" expression)? ";"

A statement that cannot be read is dropped and parsing goes on behind it, so a block always comes
to an end.
-/
namespace Lss.Parser

def varStatement (fin : Token) (ts : List Token) : Reply Stmt ts :=
  (identifier "after 'var'" fin ts).start fun name rest h =>
    let finish (init : Option Expr) (rest : List Token) (h : Shorter rest ts) : Reply Stmt ts :=
      (expect .semicolon "after variable declaration" fin rest).next h fun _ rest h =>
        .done (.var name init) rest [] h
    match rest with
    | [] => finish none [] h
    | t :: rest =>
      if t.kind = .assign then
        (expression fin rest).next h.of_cons fun e rest h => finish (some e) rest h
      else finish none (t :: rest) h

def returnStatement (fin keyword : Token) (ts : List Token) : Reply Stmt ts :=
  if peek fin ts = .semicolon then
    (expect .semicolon "after return value" fin ts).start fun mark rest h =>
      .done (.return_ none (keyword.span + mark.span)) rest [] h
  else
    (expression fin ts).start fun e rest h =>
      (expect .semicolon "after return value" fin rest).next h fun mark rest h =>
        .done (.return_ (some e) (keyword.span + mark.span)) rest [] h

def expressionStatement (fin : Token) (ts : List Token) : Reply Stmt ts :=
  (expression fin ts).start fun e rest h =>
    let finish (rest : List Token) (h : Shorter rest ts) : Reply Stmt ts :=
      (expect .semicolon "after expression" fin rest).next h fun _ rest h =>
        .done (.expr e) rest [] h
    match rest with
    | [] => finish [] h
    | t :: rest =>
      if t.kind = .assign then
        (expression fin rest).next h.of_cons fun value rest h =>
          (expect .semicolon "after assignment" fin rest).next h fun _ rest h =>
            .done (.assign e value) rest [] h
      else finish (t :: rest) h

def parenthesized (opening closing : String) (fin : Token) (ts : List Token) : Reply Expr ts :=
  (expect .leftParen opening fin ts).start fun _ rest h =>
    (closed fin .rightParen closing rest).next h fun inner rest h => .done inner.1 rest [] h

def iteration (fin : Token) (ts : List Token) : Reply (Token × Expr) ts :=
  (expect .leftParen "after 'foreach'" fin ts).start fun _ rest h =>
    (identifier "for loop variable" fin rest).next h fun x rest h =>
      (expect (.keyword .in_) "after loop variable" fin rest).next h fun _ rest h =>
        (closed fin .rightParen "after collection" rest).next h fun inner rest h =>
          .done (x, inner.1) rest [] h

def repetition (fin : Token) (ts : List Token) : Reply Expr ts :=
  (expect (.keyword .while_) "after 'do' body" fin ts).start fun _ rest h =>
    (parenthesized "after 'while'" "after loop condition" fin rest).next h fun c rest h =>
      (expect .semicolon "after 'do ... while'" fin rest).next h fun _ rest h =>
        .done c rest [] h

mutual

def statement (fin : Token) (ts : List Token) : Reply Stmt ts :=
  match ts with
  | [] => expressionStatement fin []
  | t :: rest =>
    match t.kind with
    | .leftBrace => (block fin (t :: rest)).start fun b rest h => .done (.block b) rest [] h
    | .keyword .var => (varStatement fin rest).last (.tail t rest)
    | .keyword .return_ => (returnStatement fin t rest).last (.tail t rest)
    | .keyword .if_ => (ifStatement fin t rest).last (.tail t rest)
    | .keyword .while_ => (whileStatement fin rest).last (.tail t rest)
    | .keyword .do_ => (doStatement fin rest).last (.tail t rest)
    | .keyword .foreach => (foreachStatement fin rest).last (.tail t rest)
    | .keyword .function | .keyword .class_ | .keyword .property | .keyword .global =>
      .gaveUp true rest [(ParseFault.misplacedDeclaration t.kind).at_ t] (Shorter.moved_tail t rest)
    | _ => expressionStatement fin (t :: rest)
termination_by 4 * ts.length + 1

def ifStatement (fin keyword : Token) (ts : List Token) : Reply Stmt ts :=
  (parenthesized "after 'if'" "after if condition" fin ts).start fun c rest h =>
    (statement fin rest).next h fun body rest h =>
      let span := keyword.span + body.span
      match rest with
      | [] => .done (.if_ (some c) body none span) [] [] h
      | t :: rest =>
        have h' := h.of_cons
        if t.kind = .keyword .else_ then
          (statement fin rest).next h' fun arm rest h =>
            let armSpan := t.span + arm.span
            .done (.if_ (some c) body (some (.if_ none arm none armSpan)) (span + armSpan)) rest []
              h
        else .done (.if_ (some c) body none span) (t :: rest) [] h
termination_by 4 * ts.length + 2

def whileStatement (fin : Token) (ts : List Token) : Reply Stmt ts :=
  (parenthesized "after 'while'" "after loop condition" fin ts).start fun c rest h =>
    (statement fin rest).next h fun body rest h => .done (.while_ c body) rest [] h
termination_by 4 * ts.length + 2

def doStatement (fin : Token) (ts : List Token) : Reply Stmt ts :=
  (statement fin ts).start fun body rest h =>
    (repetition fin rest).next h fun c rest h => .done (.doWhile body c) rest [] h
termination_by 4 * ts.length + 2

def foreachStatement (fin : Token) (ts : List Token) : Reply Stmt ts :=
  (iteration fin ts).start fun head rest h =>
    (statement fin rest).next h fun body rest h =>
      .done (.foreach head.1 head.2 body) rest [] h
termination_by 4 * ts.length + 2

def block (fin : Token) (ts : List Token) : Reply Block ts :=
  (expect .leftBrace "to open a block" fin ts).start fun brace rest h =>
    statements fin brace [] [] rest h
termination_by 4 * ts.length

/-- Statements up to the closing brace; `acc` and `notes` hold earlier ones in reverse. A missing
brace is only complained of. -/
def statements {all : List Token} (fin brace : Token) (acc : List Stmt) (notes : List Diagnostic)
    (ts : List Token) (h : Shorter ts all) : Reply Block all :=
  match ts with
  | [] =>
    let missing := (ParseFault.expectedToken .rightBrace "to close the block" fin).at_ fin
    .done ⟨acc.reverse, brace.span + fin.span⟩ [] (notes.reverse ++ [missing]) h
  | t :: rest =>
    if t.kind = .rightBrace then
      .done ⟨acc.reverse, brace.span + t.span⟩ rest notes.reverse h.of_cons
    else
      match statement fin (t :: rest) with
      | .done s rest' more h' =>
        statements fin brace (s :: acc) (more.reverse ++ notes) rest' (h'.within h)
      | .gaveUp moved rest' more h' =>
        have _shorter := recover_shorter h'
        statements fin brace acc (more.reverse ++ notes) (recover moved rest') (recover_within h' h)
termination_by 4 * ts.length + 2
decreasing_by all_goals (simp only [Shorter, List.length_cons] at *; omega)

end

end Lss.Parser
