import Lss.Proofs.Lexed
import Lss.Tree.Printer

/-!
# Trees without places, and the tokens of a tree

Two trees are the same up to places when they are equal once `bare`. A tree is `folded` when no
minus stands in front of a number: the sign has become part of the number. The `tokens` of a tree
are what its text is made of, without blanks and places.
-/
namespace Lss

namespace Expr

mutual

def bare : Expr → Expr
  | .literal t => .literal t.bare
  | .variable t => .variable t.bare
  | .grouping e => .grouping e.bare
  | .unary op e leads => .unary op.bare e.bare leads
  | .binary l op r => .binary l.bare op.bare r.bare
  | .index a i _ => .index a.bare i.bare .synthetic
  | .array es _ => .array (bareAll es) .synthetic
  | .call f es _ => .call f.bare (bareAll es) .synthetic
  | .construct type none _ => .construct type.bare none .synthetic
  | .construct type (some es) _ => .construct type.bare (some (bareAll es)) .synthetic
  | .pending type => .pending type.bare
termination_by structural e => e

def bareAll : List Expr → List Expr
  | [] => []
  | e :: es => e.bare :: bareAll es
termination_by structural es => es

end

def negated? : Expr → Option Expr
  | .literal t =>
    if t.kind = .integer ∨ t.kind = .float then
      some (.literal { t with text := Parser.negateText t.text })
    else none
  | _ => none

/-- An operator before an operand; a minus before a number becomes its sign. -/
def prefixed (op : Token) (e : Expr) : Expr :=
  ((if op.kind = .binary .sub then e.negated? else none)).getD (.unary op e true)

mutual

def folded : Expr → Expr
  | .grouping e => .grouping e.folded
  | .unary op e true => e.folded.prefixed op
  | .unary op e false => .unary op e.folded false
  | .binary l op r => .binary l.folded op r.folded
  | .index a i s => .index a.folded i.folded s
  | .array es s => .array (foldedAll es) s
  | .call f es s => .call f.folded (foldedAll es) s
  | .construct type (some es) s => .construct type (some (foldedAll es)) s
  | e => e
termination_by structural e => e

def foldedAll : List Expr → List Expr
  | [] => []
  | e :: es => e.folded :: foldedAll es
termination_by structural es => es

end

/-- The sign of a literal is a token of its own. -/
def literalTokens (t : Token) : List Token :=
  match t.text.toList with
  | '-' :: cs => [.of (.binary .sub), .synthetic t.kind (String.ofList cs)]
  | _ => [t.bare]

mutual

def tokens : Expr → List Token
  | .literal t => literalTokens t
  | .variable t => [t.bare]
  | .grouping e => .of .leftParen :: (e.tokens ++ [Token.of .rightParen])
  | .unary op e true => op.bare :: e.tokens
  | .unary op e false => e.tokens ++ [op.bare]
  | .binary l op r => l.tokens ++ op.bare :: r.tokens
  | .index a i _ => a.tokens ++ .of .leftBracket :: (i.tokens ++ [Token.of .rightBracket])
  | .array es _ => .of .leftBracket :: (listTokens es ++ [Token.of .rightBracket])
  | .call f es _ => f.tokens ++ .of .leftParen :: (listTokens es ++ [Token.of .rightParen])
  | .construct type none _ => [.of (.keyword .new), type.bare]
  | .construct type (some es) _ =>
    .of (.keyword .new) :: type.bare :: .of .leftParen :: (listTokens es ++ [Token.of .rightParen])
  | .pending type => [.of (.keyword .new), type.bare]
termination_by structural e => e

def listTokens : List Expr → List Token
  | [] => []
  | e :: es => e.tokens ++ moreTokens es
termination_by structural es => es

def moreTokens : List Expr → List Token
  | [] => []
  | e :: es => .of .comma :: (e.tokens ++ moreTokens es)
termination_by structural es => es

end

theorem literalTokens_signed {t : Token} {cs : List Char} (h : t.text.toList = '-' :: cs) :
    literalTokens t = [.of (.binary .sub), .synthetic t.kind (String.ofList cs)] := by
  simp [literalTokens, h]

theorem literalTokens_unsigned {t : Token} (h : t.text.toList.head? ≠ some '-') :
    literalTokens t = [t.bare] := by
  unfold literalTokens
  split
  · next cs hcs => simp [hcs] at h
  · rfl

@[simp] theorem bareAll_eq (es : List Expr) : bareAll es = es.map bare := by
  induction es with
  | nil => rfl
  | cons e es ih => rw [bareAll, ih, List.map_cons]

@[simp] theorem foldedAll_eq (es : List Expr) : foldedAll es = es.map folded := by
  induction es with
  | nil => rfl
  | cons e es ih => rw [foldedAll, ih, List.map_cons]

end Expr

/-! Statements and declarations, with other expressions, tokens and places in them. -/

section

variable (f : Expr → Expr) (g : Token → Token) (p : Span → Span)

namespace Stmt

mutual

/-- The same statement with `f`, `g` and `p` applied to its expressions, tokens and places. -/
def rebuild : Stmt → Stmt
  | .block ⟨ss, s⟩ => .block ⟨rebuildAll ss, p s⟩
  | .classDecl ⟨name, base, properties, methods⟩ =>
    .classDecl ⟨g name, base.map g, properties.map g, rebuildMethods methods⟩
  | .property name => .property (g name)
  | .subroutine ⟨name, parameters, ⟨ss, s⟩⟩ =>
    .subroutine ⟨g name, parameters.map g, ⟨rebuildAll ss, p s⟩⟩
  | .global name => .global (g name)
  | .expr e => .expr (f e)
  | .return_ value s => .return_ (value.map f) (p s)
  | .if_ c body none s => .if_ (c.map f) (rebuild body) none (p s)
  | .if_ c body (some arm) s => .if_ (c.map f) (rebuild body) (some (rebuild arm)) (p s)
  | .while_ c body => .while_ (f c) (rebuild body)
  | .doWhile body c => .doWhile (rebuild body) (f c)
  | .foreach x c body => .foreach (g x) (f c) (rebuild body)
  | .assign t v => .assign (f t) (f v)
  | .var name init => .var (g name) (init.map f)
termination_by structural s => s

def rebuildAll : List Stmt → List Stmt
  | [] => []
  | s :: ss => rebuild s :: rebuildAll ss
termination_by structural ss => ss

def rebuildMethods : List Subroutine → List Subroutine
  | [] => []
  | ⟨name, parameters, ⟨ss, s⟩⟩ :: ms =>
    ⟨g name, parameters.map g, ⟨rebuildAll ss, p s⟩⟩ :: rebuildMethods ms
termination_by structural ms => ms

end

@[simp] theorem rebuildAll_eq (ss : List Stmt) : rebuildAll f g p ss = ss.map (rebuild f g p) := by
  induction ss with
  | nil => rfl
  | cons s ss ih => rw [rebuildAll, ih, List.map_cons]

end Stmt

def SubroutineOf.rebuild (s : Subroutine) : Subroutine :=
  ⟨g s.name, s.parameters.map g, ⟨s.body.statements.map (Stmt.rebuild f g p), p s.body.span⟩⟩

def ClassDeclOf.rebuild (c : ClassDecl) : ClassDecl :=
  ⟨g c.name, c.base.map g, c.properties.map g, c.methods.map (SubroutineOf.rebuild f g p)⟩

def SourceUnit.rebuild (u : SourceUnit) : SourceUnit where
  file := u.file
  globals := u.globals.map g
  functions := u.functions.map (SubroutineOf.rebuild f g p)
  classes := u.classes.map (ClassDeclOf.rebuild f g p)

end

def Stmt.bare : Stmt → Stmt := rebuild Expr.bare Token.bare fun _ => .synthetic

def Stmt.folded : Stmt → Stmt := rebuild Expr.folded id id

def SubroutineOf.bare : Subroutine → Subroutine := rebuild Expr.bare Token.bare fun _ => .synthetic

def SubroutineOf.folded : Subroutine → Subroutine := rebuild Expr.folded id id

def ClassDeclOf.bare : ClassDecl → ClassDecl := rebuild Expr.bare Token.bare fun _ => .synthetic

def ClassDeclOf.folded : ClassDecl → ClassDecl := rebuild Expr.folded id id

def SourceUnit.bare : SourceUnit → SourceUnit := rebuild Expr.bare Token.bare fun _ => .synthetic

def SourceUnit.folded : SourceUnit → SourceUnit := rebuild Expr.folded id id

/-! The tokens of statements and declarations. -/

def guardTokens (k : Keyword) (inner : List Token) : List Token :=
  .of (.keyword k) :: .of .leftParen :: (inner ++ [Token.of .rightParen])

def commaTokens : List Token → List Token
  | [] => []
  | t :: ts => t.bare :: ts.flatMap fun t => [.of .comma, t.bare]

def SubroutineOf.headTokens {σ : Type} (s : SubroutineOf σ) : List Token :=
  .of (.keyword .function) :: s.name.bare :: .of .leftParen ::
    (commaTokens s.parameters ++ [Token.of .rightParen])

def itemTokens (k : Keyword) (name : Token) : List Token :=
  [.of (.keyword k), name.bare, .of .semicolon]

def baseTokens : Option Token → List Token
  | some base => [.of .colon, base.bare]
  | none => []

def ClassDeclOf.headTokens {σ : Type} (c : ClassDeclOf σ) : List Token :=
  .of (.keyword .class_) :: c.name.bare ::
    (baseTokens c.base ++ .of .leftBrace :: c.properties.flatMap (itemTokens .property))

namespace Stmt

mutual

def tokens : Stmt → List Token
  | .block ⟨ss, _⟩ => .of .leftBrace :: (tokensAll ss ++ [Token.of .rightBrace])
  | .classDecl ⟨name, base, properties, methods⟩ =>
    ClassDeclOf.headTokens ⟨name, base, properties, methods⟩ ++
      (methodTokens methods ++ [Token.of .rightBrace])
  | .property name => itemTokens .property name
  | .subroutine ⟨name, parameters, ⟨ss, s⟩⟩ =>
    SubroutineOf.headTokens ⟨name, parameters, BlockOf.mk ss s⟩ ++
      .of .leftBrace :: (tokensAll ss ++ [Token.of .rightBrace])
  | .global name => itemTokens .global name
  | .expr e => e.tokens ++ [Token.of .semicolon]
  | .return_ none _ => [.of (.keyword .return_), .of .semicolon]
  | .return_ (some e) _ => .of (.keyword .return_) :: (e.tokens ++ [Token.of .semicolon])
  | .if_ none body _ _ => .of (.keyword .else_) :: tokens body
  | .if_ (some c) body none _ => guardTokens .if_ c.tokens ++ tokens body
  | .if_ (some c) body (some arm) _ => guardTokens .if_ c.tokens ++ (tokens body ++ tokens arm)
  | .while_ c body => guardTokens .while_ c.tokens ++ tokens body
  | .doWhile body c =>
    .of (.keyword .do_) :: (tokens body ++ (guardTokens .while_ c.tokens ++ [Token.of .semicolon]))
  | .foreach x c body =>
    guardTokens .foreach (x.bare :: .of (.keyword .in_) :: c.tokens) ++ tokens body
  | .assign t v => t.tokens ++ .of .assign :: (v.tokens ++ [Token.of .semicolon])
  | .var name none => [.of (.keyword .var), name.bare, .of .semicolon]
  | .var name (some e) =>
    .of (.keyword .var) :: name.bare :: .of .assign :: (e.tokens ++ [Token.of .semicolon])
termination_by structural s => s

def tokensAll : List Stmt → List Token
  | [] => []
  | s :: ss => tokens s ++ tokensAll ss
termination_by structural ss => ss

def methodTokens : List Subroutine → List Token
  | [] => []
  | ⟨name, parameters, ⟨ss, s⟩⟩ :: ms =>
    SubroutineOf.headTokens ⟨name, parameters, BlockOf.mk ss s⟩ ++
      .of .leftBrace :: (tokensAll ss ++ .of .rightBrace :: methodTokens ms)
termination_by structural ms => ms

end

end Stmt

def SourceUnit.tokens (u : SourceUnit) : List Token :=
  u.globals.flatMap (itemTokens .global) ++
    (u.functions.flatMap (fun f => (Stmt.subroutine f).tokens) ++
      u.classes.flatMap fun c => (Stmt.classDecl c).tokens)

end Lss
