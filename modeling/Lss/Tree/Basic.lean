import Lss.Token.Basic

/-!
The tree of a program. Nodes keep the tokens they were read from, so a tree prints back with its
own spellings and every node has a span.
-/
namespace Lss

inductive Expr where
  | literal (token : Token)
  /-- A name, a property after a dot, or `this`. -/
  | variable (token : Token)
  | grouping (inner : Expr)
  /-- The operator stands before its operand unless `leads` is false. -/
  | unary (operator : Token) (operand : Expr) (leads : Bool)
  /-- Access operators included. -/
  | binary (left : Expr) (operator : Token) (right : Expr)
  | index (array : Expr) (at_ : Expr) (span : Span)
  | array (elements : List Expr) (span : Span)
  | call (target : Expr) (arguments : List Expr) (span : Span)
  /-- `new T`, with `none` where no argument list is written. -/
  | construct (type : Token) (arguments : Option (List Expr)) (span : Span)
  /-- An object whose constructor has not run yet; never in a program's text. -/
  | pending (type : Token)
deriving Repr

namespace Expr

mutual

def same : Expr → Expr → Bool
  | .literal a, .literal b => a = b
  | .variable a, .variable b => a = b
  | .grouping a, .grouping b => same a b
  | .unary o a p, .unary o' b p' => o = o' && p = p' && same a b
  | .binary a o c, .binary b o' d => o = o' && same a b && same c d
  | .index a i s, .index b j t => s = t && same a b && same i j
  | .array as s, .array bs t => s = t && sameAll as bs
  | .call f as s, .call g bs t => s = t && same f g && sameAll as bs
  | .construct a none s, .construct b none t => a = b && s = t
  | .construct a (some as) s, .construct b (some bs) t => a = b && s = t && sameAll as bs
  | .pending a, .pending b => a = b
  | _, _ => false

def sameAll : List Expr → List Expr → Bool
  | [], [] => true
  | a :: as, b :: bs => same a b && sameAll as bs
  | _, _ => false

end

mutual

theorem same_iff (a b : Expr) : same a b = true ↔ a = b := by
  cases a <;> cases b <;> try (simp [same]; done)
  case grouping.grouping a b => simp [same, same_iff a b]
  case unary.unary o a p o' b p' => simp [same, same_iff a b]; grind
  case binary.binary a o c b o' d => simp [same, same_iff a b, same_iff c d]; grind
  case index.index a i s b j t => simp [same, same_iff a b, same_iff i j]; grind
  case array.array as s bs t => simp [same, sameAll_iff as bs]; grind
  case call.call f as s g bs t => simp [same, same_iff f g, sameAll_iff as bs]; grind
  case construct.construct a as s b bs t =>
    cases as <;> cases bs <;> simp [same]
    case some.some as bs => simp [sameAll_iff as bs]; grind

theorem sameAll_iff (as bs : List Expr) : sameAll as bs = true ↔ as = bs := by
  cases as <;> cases bs <;> try (simp [sameAll]; done)
  case cons.cons a as b bs => simp [sameAll, same_iff a b, sameAll_iff as bs]

end

instance : DecidableEq Expr := fun a b => decidable_of_iff _ (same_iff a b)

def span : Expr → Span
  | .literal t | .variable t | .pending t => t.span
  | .grouping e => e.span
  | .unary op e _ => op.span + e.span
  | .binary l op r => l.span + op.span + r.span
  | .index _ _ s | .array _ s | .call _ _ s | .construct _ _ s => s

def name (text : String) : Expr := .variable (.identifier text)

def this : Expr := .variable (.of (.keyword .this))

def operation (left : Expr) (op : TokenKind) (right : Expr) : Expr := .binary left (.of op) right

def ungrouped : Expr → Expr
  | .grouping e => e.ungrouped
  | e => e

end Expr

structure BlockOf (σ : Type) where
  statements : List σ
  span : Span
deriving Repr

structure SubroutineOf (σ : Type) where
  name : Token
  parameters : List Token
  body : BlockOf σ
deriving Repr

structure ClassDeclOf (σ : Type) where
  name : Token
  base : Option Token
  properties : List Token
  methods : List (SubroutineOf σ)
deriving Repr

inductive Stmt where
  | block (body : BlockOf Stmt)
  | classDecl (decl : ClassDeclOf Stmt)
  | property (name : Token)
  | subroutine (decl : SubroutineOf Stmt)
  | global (name : Token)
  | expr (e : Expr)
  | return_ (value : Option Expr) (span : Span)
  /-- An `if`, or an `else` arm where there is no condition. -/
  | if_ (condition : Option Expr) (body : Stmt) (otherwise : Option Stmt) (span : Span)
  | while_ (condition : Expr) (body : Stmt)
  | doWhile (body : Stmt) (condition : Expr)
  | foreach (element : Token) (collection : Expr) (body : Stmt)
  | assign (target value : Expr)
  | var (name : Token) (init : Option Expr)
deriving Repr

abbrev Block := BlockOf Stmt

abbrev Subroutine := SubroutineOf Stmt

abbrev ClassDecl := ClassDeclOf Stmt

namespace Stmt

def span : Stmt → Span
  | .block b => b.span
  | .classDecl c => c.name.span
  | .property name | .global name => name.span
  | .subroutine s => s.name.span + s.body.span
  | .expr e => e.span
  | .return_ _ s | .if_ _ _ _ s => s
  | .while_ c body | .doWhile body c => c.span + body.span
  | .foreach x c body => x.span + c.span + body.span
  | .assign t v => t.span + v.span
  | .var name (some e) => name.span + e.span
  | .var name none => name.span

def isBlock : Stmt → Bool
  | .block _ => true
  | _ => false

def isReturn : Stmt → Bool
  | .return_ _ _ => true
  | _ => false

/-- A block without a place. -/
def ofList (statements : List Stmt) : Stmt := .block ⟨statements, .synthetic⟩

end Stmt

structure SourceUnit where
  file : Option String := none
  globals : List Token := []
  functions : List Subroutine := []
  classes : List ClassDecl := []
deriving Repr, Inhabited

namespace SourceUnit

def class? (u : SourceUnit) (name : String) : Option ClassDecl :=
  u.classes.find? (·.name.text == name)

end SourceUnit

end Lss
