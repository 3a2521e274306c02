import Lss.Tree.Basic
import Lss.Tree.Parser.Reply

/-!
Expressions, by precedence climbing:

    expression → binary operators by precedence, powers grouping to the right
    unary      → ("-" | "!" | "~") unary | trailing
    trailing   → primary ("." NAME | ".$" primary | "::" IDENT | "::$" primary
                          | "[" expression "]" | "(" arguments ")")*
    primary    → literal | IDENT | "this" | "(" expression ")" | "[" elements "]"
               | "new" IDENT ("(" arguments ")")?
-/
namespace Lss.Parser

/-- A sign in front of a number becomes part of it, and a second one takes the first away. -/
def negateText (text : String) : String :=
  match text.toList with
  | '-' :: cs => String.ofList cs
  | cs => String.ofList ('-' :: cs)

def applyUnary (op : Token) (operand : Expr) : Expr :=
  match operand with
  | .literal t =>
    if op.kind = .binary .sub ∧ (t.kind = .integer ∨ t.kind = .float) then
      .literal ⟨t.kind, negateText t.text, op.span + t.span⟩
    else .unary op operand true
  | _ => .unary op operand true

/-- The least precedence that the right operand of an operator may have at its top. -/
def rightFloor (op : BinaryOp) : Nat :=
  if op.groupsRight then op.precedence else op.precedence + 1

def isLiteral : TokenKind → Bool
  | .integer | .float | .string | .keyword .true_ | .keyword .false_ | .keyword .nothing => true
  | _ => false

/-- The end of a list between commas, `acc` in reverse: its closing mark. Calls take so many
arguments and no more. -/
def finishArguments {all : List Token} (fin : Token) (close : TokenKind) (context : String)
    (acc : List Expr) (notes : List Diagnostic) (ts : List Token) (h : Shorter ts all) :
    Reply (List Expr × Token) all :=
  let excess :=
    if close = .rightParen && ParseFault.maxArguments < acc.length then
      [ParseFault.tooManyArguments.at_ (ts.headD fin)]
    else []
  ((expect close context fin ts).next h fun mark rest h =>
    .done (acc.reverse, mark) rest [] h).after (notes ++ excess)

mutual

def expression (fin : Token) (ts : List Token) : Reply Expr ts := binary fin 1 ts
termination_by 8 * ts.length + 5

def binary (fin : Token) (floor : Nat) (ts : List Token) : Reply Expr ts :=
  match unary fin ts with
  | .done left rest notes h => binaryTail fin floor left notes rest h
  | .gaveUp moved rest notes h => .gaveUp moved rest notes h
termination_by 8 * ts.length + 4

/-- Operators and right operands after `left`; `notes` are earlier complaints. -/
def binaryTail {all : List Token} (fin : Token) (floor : Nat) (left : Expr)
    (notes : List Diagnostic) (ts : List Token) (h : Shorter ts all) : Reply Expr all :=
  match ts with
  | [] => .done left [] notes h
  | t :: rest =>
    match t.kind with
    | .binary op =>
      if op.precedence < floor then .done left (t :: rest) notes h
      else
        match binary fin (rightFloor op) rest with
        | .done right rest' more h' =>
          binaryTail fin floor (.binary left t right) (notes ++ more) rest' (h'.behind h)
        | .gaveUp _ rest' more h' => .gaveUp true rest' (notes ++ more) (h.gaveUp_behind h')
    | _ => .done left (t :: rest) notes h
termination_by 8 * ts.length

def unary (fin : Token) (ts : List Token) : Reply Expr ts :=
  match ts with
  | [] => trailing fin []
  | t :: rest =>
    match t.kind with
    | .binary .sub | .bang | .tilde =>
      (unary fin rest).next (.tail t rest) fun e rest' h => .done (applyUnary t e) rest' [] h
    | _ => trailing fin (t :: rest)
termination_by 8 * ts.length + 3

def trailing (fin : Token) (ts : List Token) : Reply Expr ts :=
  match primary fin ts with
  | .done e rest notes h => trailingTail fin e notes rest h
  | .gaveUp moved rest notes h => .gaveUp moved rest notes h
termination_by 8 * ts.length + 2

def trailingTail {all : List Token} (fin : Token) (e : Expr) (notes : List Diagnostic)
    (ts : List Token) (h : Shorter ts all) : Reply Expr all :=
  match ts with
  | [] => .done e [] notes h
  | t :: rest =>
    match t.kind with
    | .access .member =>
      match memberName fin rest with
      | .done name rest' more h' =>
        trailingTail fin (.binary e t (.variable name)) (notes ++ more) rest' (h'.behind h)
      | .gaveUp _ rest' more h' => .gaveUp true rest' (notes ++ more) (h.gaveUp_behind h')
    | .access .scope =>
      match identifier "after '::'" fin rest with
      | .done name rest' more h' =>
        trailingTail fin (.binary e t (.variable name)) (notes ++ more) rest' (h'.behind h)
      | .gaveUp _ rest' more h' => .gaveUp true rest' (notes ++ more) (h.gaveUp_behind h')
    | .access .dynamicMember | .access .dynamicScope =>
      match primary fin rest with
      | .done name rest' more h' =>
        trailingTail fin (.binary e t name) (notes ++ more) rest' (h'.behind h)
      | .gaveUp _ rest' more h' => .gaveUp true rest' (notes ++ more) (h.gaveUp_behind h')
    | .leftBracket =>
      match closed fin .rightBracket "after index" rest with
      | .done (i, close) rest' more h' =>
        trailingTail fin (.index e i (e.span + close.span)) (notes ++ more) rest' (h'.behind h)
      | .gaveUp _ rest' more h' => .gaveUp true rest' (notes ++ more) (h.gaveUp_behind h')
    | .leftParen =>
      match arguments fin .rightParen "after arguments" rest with
      | .done (es, close) rest' more h' =>
        trailingTail fin (.call e es (e.span + close.span)) (notes ++ more) rest' (h'.behind h)
      | .gaveUp _ rest' more h' => .gaveUp true rest' (notes ++ more) (h.gaveUp_behind h')
    | _ => .done e (t :: rest) notes h
termination_by 8 * ts.length

def primary (fin : Token) (ts : List Token) : Reply Expr ts :=
  match ts with
  | [] => .fail .expectedExpression fin []
  | t :: rest =>
    match t.kind with
    | .identifier | .keyword .this => .done (.variable t) rest [] (.tail t rest)
    | .leftParen =>
      (closed fin .rightParen "after expression" rest).next (.tail t rest) fun inner rest h =>
        .done (.grouping inner.1) rest [] h
    | .leftBracket =>
      (arguments fin .rightBracket "after array elements" rest).next (.tail t rest)
        fun items rest h => .done (.array items.1 (t.span + items.2.span)) rest [] h
    | .keyword .new => (construction fin t rest).last (.tail t rest)
    | kind =>
      if isLiteral kind then .done (.literal t) rest [] (.tail t rest)
      else .fail .expectedExpression fin (t :: rest)
termination_by 8 * ts.length + 1

def construction (fin keyword : Token) (ts : List Token) : Reply Expr ts :=
  (identifier "after 'new'" fin ts).start fun type rest h =>
    match rest with
    | [] => .done (.construct type none (keyword.span + type.span)) [] [] h
    | t :: rest =>
      have h' := h.of_cons
      if t.kind = .leftParen then
        (arguments fin .rightParen "after constructor arguments" rest).next h'
          fun items rest h =>
            .done (.construct type (some items.1) (keyword.span + type.span + items.2.span)) rest []
              h
      else .done (.construct type none (keyword.span + type.span)) (t :: rest) [] h
termination_by 8 * ts.length + 7

def closed (fin : Token) (close : TokenKind) (context : String) (ts : List Token) :
    Reply (Expr × Token) ts :=
  (expression fin ts).start fun e rest h =>
    (expect close context fin rest).next h fun mark rest h => .done (e, mark) rest [] h
termination_by 8 * ts.length + 6

def arguments (fin : Token) (close : TokenKind) (context : String) (ts : List Token) :
    Reply (List Expr × Token) ts :=
  if peek fin ts = close then
    (expect close context fin ts).start fun mark rest h => .done ([], mark) rest [] h
  else
    match expression fin ts with
    | .done e rest notes h => argumentsTail fin close context [e] notes rest h
    | .gaveUp moved rest notes h => .gaveUp moved rest notes h
termination_by 8 * ts.length + 6

def argumentsTail {all : List Token} (fin : Token) (close : TokenKind) (context : String)
    (acc : List Expr) (notes : List Diagnostic) (ts : List Token) (h : Shorter ts all) :
    Reply (List Expr × Token) all :=
  match ts with
  | [] => finishArguments fin close context acc notes [] h
  | t :: rest =>
    if t.kind = .comma then
      match expression fin rest with
      | .done e rest' more h' =>
        argumentsTail fin close context (e :: acc) (notes ++ more) rest' (h'.behind h)
      | .gaveUp _ rest' more h' => .gaveUp true rest' (notes ++ more) (h.gaveUp_behind h')
    else finishArguments fin close context acc notes (t :: rest) h
termination_by 8 * ts.length

end

end Lss.Parser
