import Lss.Proofs.Formed

/-!
# The grammar

What tokens derive, rule by rule:

    unit       → ("global" NAME ";" | function | class)* END
    function   → "function" NAME "(" (NAME ("," NAME)*)? ")" block
    class      → "class" NAME (":" NAME)? "{" ("property" NAME ";" | function)* "}"
    statement  → block | var | if | while | do | foreach | return | expression ("=" expression)? ";"
    expression → expression OPERATOR expression | unary
    unary      → ("-" | "!" | "~") unary | trailing
    trailing   → primary ("." NAME | ".$" primary | "::" NAME | "::$" primary
                          | "[" expression "]" | "(" arguments ")")*
    primary    → literal | NAME | "this" | "(" expression ")" | "[" arguments "]"
               | "new" NAME ("(" arguments ")")?

A derivation leads from tokens to a tree and to the tokens behind it. The rules are those that a
reader of the language is told, and leave three choices open: which of two operators takes an
operand, which `if` an `else` belongs to, and whether arguments behind `new T` are its own. `G` says
whether the choices are made: by precedence, for the nearest `if`, and for the `new`.
-/
namespace Lss

def Expr.topOperator? : Expr → Option BinaryOp
  | .binary _ op _ => op.kind.operator?
  | _ => none

def Expr.literal? : Expr → Option Token
  | .literal t => some t
  | _ => none

namespace Grammar

/-- An operation by `i` may be the left operand of `o`: it binds tighter, or as tightly where
operators group to the left. -/
def LeftOf (o i : BinaryOp) : Prop :=
  o.precedence < i.precedence ∨ o.precedence = i.precedence ∧ o.groupsRight = false

def RightOf (o i : BinaryOp) : Prop :=
  o.precedence < i.precedence ∨ o.precedence = i.precedence ∧ o.groupsRight = true

def Fits (o : BinaryOp) (l r : Expr) : Prop :=
  (∀ i ∈ l.topOperator?, LeftOf o i) ∧ ∀ i ∈ r.topOperator?, RightOf o i

def IsNumber (t : Token) : Prop := t.kind = .integer ∨ t.kind = .float

def Opposite (a b : String) : Prop :=
  a.toList = '-' :: b.toList ∨ a.toList.head? ≠ some '-' ∧ b.toList = '-' :: a.toList

mutual

inductive Expression (G : Prop) : List Token → Expr → List Token → Prop
  | unary {ts rest : List Token} {e : Expr} : Unary G ts e rest → Expression G ts e rest
  | binary {ts ms rest : List Token} {l r : Expr} {op : Token} {o : BinaryOp} :
      op.kind = .binary o → (G → Fits o l r) → Expression G ts l (op :: ms) →
      Expression G ms r rest → Expression G ts (.binary l op r) rest

inductive Unary (G : Prop) : List Token → Expr → List Token → Prop
  | trailing {ts rest : List Token} {e : Expr} : Trailing G ts e rest → Unary G ts e rest
  /-- A minus becomes part of the number behind it. -/
  | number {ts rest : List Token} {op t : Token} {text : String} : op.kind = .binary .sub →
      IsNumber t → Opposite t.text text → Unary G ts (.literal t) rest →
      Unary G (op :: ts) (.literal ⟨t.kind, text, op.span + t.span⟩) rest
  | operator {ts rest : List Token} {op : Token} {e : Expr} : op.kind.isPrefix →
      (op.kind = .binary .sub → ∀ t ∈ e.literal?, ¬IsNumber t) → Unary G ts e rest →
      Unary G (op :: ts) (.unary op e true) rest

inductive Trailing (G : Prop) : List Token → Expr → List Token → Prop
  | primary {ts rest : List Token} {e : Expr} : Primary G ts e rest → Trailing G ts e rest
  | member {ts rest : List Token} {e : Expr} {op name : Token} : op.kind = .access .member →
      name.kind = .identifier ∨ name.kind.isProperty → Trailing G ts e (op :: name :: rest) →
      Trailing G ts (.binary e op (.variable name)) rest
  | scope {ts rest : List Token} {e : Expr} {op name : Token} : op.kind = .access .scope →
      name.kind = .identifier → Trailing G ts e (op :: name :: rest) →
      Trailing G ts (.binary e op (.variable name)) rest
  | dynamic {ts ms rest : List Token} {e name : Expr} {op : Token} :
      op.kind = .access .dynamicMember ∨ op.kind = .access .dynamicScope →
      Trailing G ts e (op :: ms) → Primary G ms name rest → Trailing G ts (.binary e op name) rest
  | index {ts ms rest : List Token} {e i : Expr} {left right : Token} : left.kind = .leftBracket →
      right.kind = .rightBracket → Trailing G ts e (left :: ms) →
      Expression G ms i (right :: rest) → Trailing G ts (.index e i (e.span + right.span)) rest
  | call {ts ms rest : List Token} {e : Expr} {es : List Expr} {left right : Token} :
      left.kind = .leftParen → right.kind = .rightParen → es.length ≤ ParseFault.maxArguments →
      (G → e.endsBare = false) → Trailing G ts e (left :: ms) → Arguments G ms es (right :: rest) →
      Trailing G ts (.call e es (e.span + right.span)) rest

inductive Primary (G : Prop) : List Token → Expr → List Token → Prop
  | literal {rest : List Token} {t : Token} : Parser.isLiteral t.kind →
      Primary G (t :: rest) (.literal t) rest
  | name {rest : List Token} {t : Token} : t.kind = .identifier ∨ t.kind = .keyword .this →
      Primary G (t :: rest) (.variable t) rest
  | grouping {ts rest : List Token} {e : Expr} {left right : Token} : left.kind = .leftParen →
      right.kind = .rightParen → Expression G ts e (right :: rest) →
      Primary G (left :: ts) (.grouping e) rest
  | array {ts rest : List Token} {es : List Expr} {left right : Token} :
      left.kind = .leftBracket → right.kind = .rightBracket → Arguments G ts es (right :: rest) →
      Primary G (left :: ts) (.array es (left.span + right.span)) rest
  | new {rest : List Token} {word type : Token} : word.kind = .keyword .new →
      type.kind = .identifier →
      Primary G (word :: type :: rest) (.construct type none (word.span + type.span)) rest
  | construct {ts rest : List Token} {es : List Expr} {word type left right : Token} :
      word.kind = .keyword .new → type.kind = .identifier → left.kind = .leftParen →
      right.kind = .rightParen → es.length ≤ ParseFault.maxArguments →
      Arguments G ts es (right :: rest) → Primary G (word :: type :: left :: ts)
        (.construct type (some es) (word.span + type.span + right.span)) rest

inductive Arguments (G : Prop) : List Token → List Expr → List Token → Prop
  | none {rest : List Token} : Arguments G rest [] rest
  | some {ts ms rest : List Token} {e : Expr} {es : List Expr} : Expression G ts e ms →
      More G ms es rest → Arguments G ts (e :: es) rest

inductive More (G : Prop) : List Token → List Expr → List Token → Prop
  | none {rest : List Token} : More G rest [] rest
  | some {ts ms rest : List Token} {comma : Token} {e : Expr} {es : List Expr} :
      comma.kind = .comma → Expression G ts e ms → More G ms es rest →
      More G (comma :: ts) (e :: es) rest

end

mutual

inductive Statement (G : Prop) : List Token → Stmt → List Token → Prop
  | block {ts rest : List Token} {b : BlockOf Stmt} : Block G ts b rest →
      Statement G ts (.block b) rest
  | var {rest : List Token} {word name mark : Token} : word.kind = .keyword .var →
      name.kind = .identifier → mark.kind = .semicolon →
      Statement G (word :: name :: mark :: rest) (.var name none) rest
  | varInit {ts rest : List Token} {word name eq mark : Token} {e : Expr} :
      word.kind = .keyword .var → name.kind = .identifier → eq.kind = .assign →
      mark.kind = .semicolon → Expression G ts e (mark :: rest) →
      Statement G (word :: name :: eq :: ts) (.var name (some e)) rest
  | return_ {rest : List Token} {word mark : Token} : word.kind = .keyword .return_ →
      mark.kind = .semicolon →
      Statement G (word :: mark :: rest) (.return_ none (word.span + mark.span)) rest
  | returnValue {ts rest : List Token} {word mark : Token} {e : Expr} :
      word.kind = .keyword .return_ → mark.kind = .semicolon → Expression G ts e (mark :: rest) →
      Statement G (word :: ts) (.return_ (some e) (word.span + mark.span)) rest
  | expr {ts rest : List Token} {mark : Token} {e : Expr} : mark.kind = .semicolon →
      Expression G ts e (mark :: rest) → Statement G ts (.expr e) rest
  | assign {ts ms rest : List Token} {eq mark : Token} {t v : Expr} : eq.kind = .assign →
      mark.kind = .semicolon → Expression G ts t (eq :: ms) → Expression G ms v (mark :: rest) →
      Statement G ts (.assign t v) rest
  | if_ {ts ms rest : List Token} {word left right : Token} {c : Expr} {body : Stmt} :
      word.kind = .keyword .if_ → left.kind = .leftParen → right.kind = .rightParen →
      Expression G ts c (right :: ms) → Statement G ms body rest →
      Statement G (word :: left :: ts) (.if_ (some c) body none (word.span + body.span)) rest
  | ifElse {ts ms ns rest : List Token} {word left right other : Token} {c : Expr}
      {body arm : Stmt} : word.kind = .keyword .if_ → left.kind = .leftParen →
      right.kind = .rightParen → other.kind = .keyword .else_ → (G → body.dangles = false) →
      Expression G ts c (right :: ms) → Statement G ms body (other :: ns) →
      Statement G ns arm rest → Statement G (word :: left :: ts)
        (.if_ (some c) body (some (.if_ none arm none (other.span + arm.span)))
          (word.span + body.span + (other.span + arm.span))) rest
  | while_ {ts ms rest : List Token} {word left right : Token} {c : Expr} {body : Stmt} :
      word.kind = .keyword .while_ → left.kind = .leftParen → right.kind = .rightParen →
      Expression G ts c (right :: ms) → Statement G ms body rest →
      Statement G (word :: left :: ts) (.while_ c body) rest
  | doWhile {ts ms rest : List Token} {word while_ left right mark : Token} {c : Expr}
      {body : Stmt} : word.kind = .keyword .do_ → while_.kind = .keyword .while_ →
      left.kind = .leftParen → right.kind = .rightParen → mark.kind = .semicolon →
      Statement G ts body (while_ :: left :: ms) → Expression G ms c (right :: mark :: rest) →
      Statement G (word :: ts) (.doWhile body c) rest
  | foreach {ts ms rest : List Token} {word left x in_ right : Token} {c : Expr} {body : Stmt} :
      word.kind = .keyword .foreach → left.kind = .leftParen → x.kind = .identifier →
      in_.kind = .keyword .in_ → right.kind = .rightParen → Expression G ts c (right :: ms) →
      Statement G ms body rest →
      Statement G (word :: left :: x :: in_ :: ts) (.foreach x c body) rest

inductive Block (G : Prop) : List Token → BlockOf Stmt → List Token → Prop
  | mk {ts rest : List Token} {left right : Token} {ss : List Stmt} : left.kind = .leftBrace →
      right.kind = .rightBrace → Statements G ts ss (right :: rest) →
      Block G (left :: ts) ⟨ss, left.span + right.span⟩ rest

inductive Statements (G : Prop) : List Token → List Stmt → List Token → Prop
  | nil {rest : List Token} : Statements G rest [] rest
  | cons {ts ms rest : List Token} {s : Stmt} {ss : List Stmt} : Statement G ts s ms →
      Statements G ms ss rest → Statements G ts (s :: ss) rest

end

inductive MoreNames : List Token → List Token → List Token → Prop
  | none {rest : List Token} : MoreNames rest [] rest
  | some {ts rest names : List Token} {comma name : Token} : comma.kind = .comma →
      name.kind = .identifier → MoreNames ts names rest →
      MoreNames (comma :: name :: ts) (name :: names) rest

inductive Parameters : List Token → List Token → List Token → Prop
  | none {rest : List Token} : Parameters rest [] rest
  | some {ts rest names : List Token} {name : Token} : name.kind = .identifier →
      MoreNames ts names rest → Parameters (name :: ts) (name :: names) rest

inductive Routine (G : Prop) : List Token → Subroutine → List Token → Prop
  | mk {ts ms rest names : List Token} {word name left right : Token} {body : BlockOf Stmt} :
      word.kind = .keyword .function → name.kind = .identifier → left.kind = .leftParen →
      right.kind = .rightParen → names.length ≤ ParseFault.maxArguments →
      Parameters ts names (right :: ms) → Block G ms body rest →
      Routine G (word :: name :: left :: ts) ⟨name, names, body⟩ rest

def Item (k : Keyword) (word name mark : Token) : Prop :=
  word.kind = .keyword k ∧ name.kind = .identifier ∧ mark.kind = .semicolon

inductive Members (G : Prop) : List Token → List Token → List Subroutine → List Token → Prop
  | nil {rest : List Token} : Members G rest [] [] rest
  | property {ts rest properties : List Token} {methods : List Subroutine}
      {word name mark : Token} : Item .property word name mark →
      Members G ts properties methods rest →
      Members G (word :: name :: mark :: ts) (name :: properties) methods rest
  | method {ts ms rest properties : List Token} {m : Subroutine} {methods : List Subroutine} :
      Routine G ts m ms → Members G ms properties methods rest →
      Members G ts properties (m :: methods) rest

inductive Base : List Token → Option Token → List Token → Prop
  | none {rest : List Token} {left : Token} : left.kind = .leftBrace → Base (left :: rest) none rest
  | some {rest : List Token} {colon base left : Token} : colon.kind = .colon →
      base.kind = .identifier → left.kind = .leftBrace →
      Base (colon :: base :: left :: rest) (some base) rest

inductive Class (G : Prop) : List Token → ClassDecl → List Token → Prop
  | mk {ts ms rest properties : List Token} {word name right : Token} {base : Option Token}
      {methods : List Subroutine} : word.kind = .keyword .class_ → name.kind = .identifier →
      right.kind = .rightBrace → Base ts base ms → Members G ms properties methods (right :: rest) →
      Class G (word :: name :: ts) ⟨name, base, properties, methods⟩ rest

inductive Declarations (G : Prop) :
    List Token → List Token → List Subroutine → List ClassDecl → Prop
  | nil : Declarations G [] [] [] []
  | global {ts globals : List Token} {functions : List Subroutine} {classes : List ClassDecl}
      {word name mark : Token} : Item .global word name mark →
      Declarations G ts globals functions classes →
      Declarations G (word :: name :: mark :: ts) (name :: globals) functions classes
  | function {ts ms globals : List Token} {f : Subroutine} {functions : List Subroutine}
      {classes : List ClassDecl} : Routine G ts f ms →
      Declarations G ms globals functions classes →
      Declarations G ts globals (f :: functions) classes
  | class_ {ts ms globals : List Token} {functions : List Subroutine} {c : ClassDecl}
      {classes : List ClassDecl} : Class G ts c ms →
      Declarations G ms globals functions classes →
      Declarations G ts globals functions (c :: classes)

/-- A whole unit with the mark at its end. It bears the file name of the first token. -/
inductive Unit (G : Prop) : List Token → SourceUnit → Prop
  | mk {ts globals : List Token} {functions : List Subroutine} {classes : List ClassDecl}
      {fin : Token} : fin.kind = .eof → Declarations G ts globals functions classes →
      Unit G (ts ++ [fin]) ⟨(ts.headD fin).span.file, globals, functions, classes⟩

end Grammar

end Lss
