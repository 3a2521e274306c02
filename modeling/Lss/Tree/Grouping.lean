import Lss.Tree.Basic

/-!
Expressions put together from operands, with parentheses just where the text would otherwise be
read in another shape.
-/
namespace Lss.Expr

/-- Binding power as an operand; `none` for whatever binds tighter than any binary operator. -/
def precedence? : Expr → Option Nat
  | .binary _ op _ => op.kind.precedence?
  | _ => none

def isSigned : Expr → Bool
  | .literal t => t.text.toList.head? == some '-'
  | _ => false

def groupsLeftOf (p : Nat) (right : Bool) (e : Expr) : Bool :=
  match e.precedence? with
  | some q => q < p || (q == p && right)
  | none => false

def groupsRightOf (p : Nat) (right : Bool) (e : Expr) : Bool :=
  match e.precedence? with
  | some q => q < p || (q == p && !right)
  | none => false

def groupedIf (c : Bool) (e : Expr) : Expr := if c then .grouping e else e

def ofBinary (left : Expr) (op : TokenKind) (right : Expr) : Expr :=
  match op.precedence? with
  | none => operation left op right
  | some p =>
    operation (left.groupedIf (left.groupsLeftOf p op.groupsRight)) op
      (right.groupedIf (right.groupsRightOf p op.groupsRight))

def ofUnary (op : TokenKind) (operand : Expr) : Expr :=
  .unary (.of op) (operand.groupedIf operand.precedence?.isSome) true

def receiver (e : Expr) : Expr :=
  e.groupedIf <|
    match e with
    | .binary _ op _ => !op.kind.isAccess
    | .unary _ _ _ => true
    | e => e.isSigned

def primary (e : Expr) : Expr :=
  e.groupedIf <|
    match e with
    | .literal _ => e.isSigned
    | .variable _ | .grouping _ | .array _ _ => false
    | _ => true

def ofAccess (left : Expr) (op : TokenKind) (right : Expr) : Expr :=
  operation left.receiver op <|
    match op with
    | .access .dynamicMember | .access .dynamicScope => right.primary
    | _ => right

def ofMember (left : Expr) (member : String) : Expr :=
  left.ofAccess (.access .member) (.name member)

end Lss.Expr
