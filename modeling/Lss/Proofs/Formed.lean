import Lss.Proofs.TreeTokens

/-!
# Trees that are read as they stand

The parentheses of a formed tree are where its shape needs them: each operand binds at least as
tightly as its place asks for, no operator behind a left operand belongs to the operand's own right
end, and no `else` belongs to an `if` further in.

Three parameters say how much is asked: `N` which names variables may have in expressions, `A`
whether calls and subroutines must keep to the number of arguments that can be passed, `B` whether
no minus may stand before a number.
-/
namespace Lss

def IsName (text : String) : Prop := Spells .identifier text.toList

def TokenKind.isPrefix : TokenKind → Bool
  | .binary .sub | .bang | .tilde => true
  | _ => false

theorem TokenKind.isPrefix_iff {k : TokenKind} :
    k.isPrefix ↔ k = .binary .sub ∨ k = .bang ∨ k = .tilde := by
  constructor
  · intro h
    unfold isPrefix at h
    split at h <;> simp_all
  · rintro (rfl | rfl | rfl) <;> rfl

def TokenKind.power : TokenKind → Nat
  | .binary o => o.precedence
  | _ => 13

/-- Operators below this precedence, and no others, can follow an operation as its own. -/
def TokenKind.hold : TokenKind → Nat
  | .binary o => Parser.rightFloor o
  | _ => 12

namespace Expr

/-- How tightly an expression binds: binary operators by their precedence, then prefix operators
and signs, then accesses, indexing and calls, then the rest. -/
def power : Expr → Nat
  | .literal t => if t.text.toList.head? = some '-' then 12 else 14
  | .unary _ _ _ => 12
  | .binary _ op _ => op.kind.power
  | .index _ _ _ | .call _ _ _ => 13
  | _ => 14

def hold : Expr → Nat
  | .binary _ op _ => op.kind.hold
  | _ => 12

/-- Does an access, or a construction itself, end in a type without arguments? -/
def endsBare : Expr → Bool
  | .construct _ none _ => true
  | .binary _ op r => op.kind.isAccess && r.endsBare
  | _ => false

inductive Formed (N : String → Prop) (A B : Prop) : Expr → Prop
  | literal {t : Token} : Parser.isLiteral t.kind → t.Spelled → Formed N A B (.literal t)
  | signed {t : Token} {cs : List Char} : t.kind = .integer ∨ t.kind = .float →
      t.text.toList = '-' :: cs → Spells t.kind cs → Formed N A B (.literal t)
  | name {t : Token} : t.kind = .identifier → N t.text → Formed N A B (.variable t)
  | this {t : Token} : t.kind = .keyword .this → t.Spelled → Formed N A B (.variable t)
  | grouping {e : Expr} : Formed N A B e → Formed N A B (.grouping e)
  | unary {op : Token} {e : Expr} : op.kind.isPrefix → op.Spelled → 12 ≤ e.power →
      (B → op.kind = .binary .sub → e.negated? = none) → Formed N A B e →
      Formed N A B (.unary op e true)
  | binary {l r : Expr} {op : Token} {o : BinaryOp} : op.kind = .binary o → op.Spelled →
      o.precedence < l.hold → Parser.rightFloor o ≤ r.power → Formed N A B l → Formed N A B r →
      Formed N A B (.binary l op r)
  | member {l : Expr} {op t : Token} : op.kind = .access .member → op.Spelled → 13 ≤ l.power →
      t.kind = .identifier ∨ t.kind.isProperty → t.Spelled → Formed N A B l →
      Formed N A B (.binary l op (.variable t))
  | scope {l : Expr} {op t : Token} : op.kind = .access .scope → op.Spelled → 13 ≤ l.power →
      t.kind = .identifier → t.Spelled → Formed N A B l → Formed N A B (.binary l op (.variable t))
  | dynamic {l r : Expr} {op : Token} :
      op.kind = .access .dynamicMember ∨ op.kind = .access .dynamicScope → op.Spelled →
      13 ≤ l.power → 14 ≤ r.power → Formed N A B l → Formed N A B r → Formed N A B (.binary l op r)
  | index {a i : Expr} {s : Span} : 13 ≤ a.power → Formed N A B a → Formed N A B i →
      Formed N A B (.index a i s)
  | array {es : List Expr} {s : Span} : (∀ e ∈ es, Formed N A B e) → Formed N A B (.array es s)
  | call {f : Expr} {es : List Expr} {s : Span} : 13 ≤ f.power → f.endsBare = false →
      (A → es.length ≤ ParseFault.maxArguments) → Formed N A B f → (∀ e ∈ es, Formed N A B e) →
      Formed N A B (.call f es s)
  | new {t : Token} {s : Span} : t.kind = .identifier → t.Spelled →
      Formed N A B (.construct t none s)
  | construct {t : Token} {es : List Expr} {s : Span} : t.kind = .identifier → t.Spelled →
      (A → es.length ≤ ParseFault.maxArguments) → (∀ e ∈ es, Formed N A B e) →
      Formed N A B (.construct t (some es) s)

end Expr

namespace Stmt

def dangles : Stmt → Bool
  | .if_ none body _ _ => body.dangles
  | .if_ (some _) _ none _ => true
  | .if_ (some _) _ (some arm) _ => arm.dangles
  | .while_ _ body | .foreach _ _ body => body.dangles
  | _ => false

inductive Formed (N : String → Prop) (A B : Prop) : Stmt → Prop
  | block {ss : List Stmt} {s : Span} : (∀ x ∈ ss, Formed N A B x) → Formed N A B (.block ⟨ss, s⟩)
  | expr {e : Expr} : e.Formed N A B → Formed N A B (.expr e)
  | return_ {value : Option Expr} {s : Span} : (∀ e ∈ value, e.Formed N A B) →
      Formed N A B (.return_ value s)
  | if_ {c : Expr} {body : Stmt} {s : Span} : c.Formed N A B → Formed N A B body →
      Formed N A B (.if_ (some c) body none s)
  | ifElse {c : Expr} {body arm : Stmt} {s s' : Span} : c.Formed N A B → Formed N A B body →
      body.dangles = false → Formed N A B arm →
      Formed N A B (.if_ (some c) body (some (.if_ none arm none s')) s)
  | while_ {c : Expr} {body : Stmt} : c.Formed N A B → Formed N A B body →
      Formed N A B (.while_ c body)
  | doWhile {c : Expr} {body : Stmt} : Formed N A B body → c.Formed N A B →
      Formed N A B (.doWhile body c)
  | foreach {x : Token} {c : Expr} {body : Stmt} : x.kind = .identifier → IsName x.text →
      c.Formed N A B → Formed N A B body → Formed N A B (.foreach x c body)
  | assign {t v : Expr} : t.Formed N A B → v.Formed N A B → Formed N A B (.assign t v)
  | var {name : Token} {init : Option Expr} : name.kind = .identifier → IsName name.text →
      (∀ e ∈ init, e.Formed N A B) → Formed N A B (.var name init)

end Stmt

def Token.IsName (t : Token) : Prop := t.kind = .identifier ∧ Lss.IsName t.text

theorem Token.IsName.spelled {t : Token} (h : t.IsName) : t.Spelled := by
  rw [Spelled, h.1]
  exact h.2

structure SubroutineOf.Formed (A B : Prop) (s : Subroutine) : Prop where
  name : s.name.IsName
  parameters : ∀ t ∈ s.parameters, t.IsName
  few : A → s.parameters.length ≤ ParseFault.maxArguments
  body : ∀ x ∈ s.body.statements, x.Formed Lss.IsName A B

structure ClassDeclOf.Formed (A B : Prop) (c : ClassDecl) : Prop where
  name : c.name.IsName
  base : ∀ t ∈ c.base, t.IsName
  properties : ∀ t ∈ c.properties, t.IsName
  methods : ∀ m ∈ c.methods, m.Formed A B

structure SourceUnit.Formed (A B : Prop) (u : SourceUnit) : Prop where
  globals : ∀ t ∈ u.globals, t.IsName
  functions : ∀ f ∈ u.functions, f.Formed A B
  classes : ∀ c ∈ u.classes, c.Formed A B

/-! Tokens around an expression. -/

def Parser.Below (floor : Nat) (rest : List Token) : Prop :=
  ∀ t ∈ rest.head?, ∀ o, t.kind = .binary o → o.precedence < floor

/-! Literals and their signs. -/

namespace Parser

theorem negateText_signed {text : String} {cs : List Char} (h : text.toList = '-' :: cs) :
    negateText text = String.ofList cs := by
  simp [negateText, h]

theorem negateText_unsigned {text : String} (h : text.toList.head? ≠ some '-') :
    negateText text = String.ofList ('-' :: text.toList) := by
  unfold negateText
  split
  · next cs hcs =>
    rw [hcs] at h
    exact absurd rfl h
  · rfl

theorem isLiteral_of_number {kind : TokenKind} (h : kind = .integer ∨ kind = .float) :
    isLiteral kind := by
  rcases h with rfl | rfl <;> rfl

/-- What a token of a literal's kind is not. -/
theorem isMark_of_isLiteral {kind : TokenKind} (h : isLiteral kind) : kind.isMark = false := by
  cases kind <;> first | rfl | cases h

end Parser

/-! Binding powers. -/

namespace BinaryOp

theorem precedence_pos (o : BinaryOp) : 1 ≤ o.precedence := by cases o <;> decide

theorem precedence_lt (o : BinaryOp) : o.precedence < 12 := by cases o <;> decide

theorem precedence_le_rightFloor (o : BinaryOp) : o.precedence ≤ Parser.rightFloor o := by
  cases o <;> decide

theorem rightFloor_le (o : BinaryOp) : Parser.rightFloor o ≤ o.precedence + 1 := by
  cases o <;> decide

theorem rightFloor_lt (o : BinaryOp) : Parser.rightFloor o < 12 := by cases o <;> decide

end BinaryOp

namespace TokenKind

theorem hold_le (k : TokenKind) : k.hold ≤ 12 := by
  cases k with
  | binary o => exact Nat.le_of_lt (BinaryOp.rightFloor_lt o)
  | _ => exact Nat.le_refl _

theorem hold_le_power (k : TokenKind) : k.hold ≤ k.power + 1 := by
  cases k with
  | binary o => exact BinaryOp.rightFloor_le o
  | _ => simp [hold, power]

theorem min_power_le_hold (k : TokenKind) : min k.power 12 ≤ k.hold := by
  cases k with
  | binary o => exact Nat.le_trans (Nat.min_le_left _ _) (BinaryOp.precedence_le_rightFloor o)
  | _ => exact Nat.min_le_right _ _

end TokenKind

namespace Expr

theorem hold_le (e : Expr) : e.hold ≤ 12 := by
  cases e with
  | binary _ op _ => exact op.kind.hold_le
  | _ => exact Nat.le_refl _

/-- An operand behind an operator holds against all that the operator does. -/
theorem min_power_le_hold (e : Expr) : min e.power 12 ≤ e.hold := by
  cases e with
  | binary _ op _ => exact op.kind.min_power_le_hold
  | _ => exact Nat.min_le_right _ _

/-- A left operand binds at least as tightly as the operators that it holds against. -/
theorem hold_le_power (e : Expr) : e.hold ≤ e.power + 1 := by
  cases e with
  | binary _ op _ => exact op.kind.hold_le_power
  | literal t =>
    simp only [hold, power]
    split <;> decide
  | _ => simp [hold, power]

/-- What binds tighter than binary operators holds against all of them. -/
theorem hold_of_power {e : Expr} (h : 12 ≤ e.power) : e.hold = 12 := by
  have := hold_le e
  have := min_power_le_hold e
  omega

theorem power_pos (e : Expr) : 1 ≤ e.power := by
  have hop (k : TokenKind) : 1 ≤ k.power := by
    cases k with
    | binary o => exact BinaryOp.precedence_pos o
    | _ => simp [TokenKind.power]
  cases e with
  | literal t =>
    simp only [power]
    split <;> decide
  | binary l op r => exact hop op.kind
  | _ => simp [power]

end Expr

end Lss
