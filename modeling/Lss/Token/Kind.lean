/-!
The kinds of lexical token, grouped by what later stages ask of them: binary operators carry a
precedence, access operators bind like calls, builtin properties may follow a dot, keywords begin
statements.
-/
namespace Lss

inductive BinaryOp where
  | or | and
  | bitOr | bitXor | bitAnd
  | equal | notEqual
  | less | lessEqual | greater | greaterEqual
  | shiftLeft | shiftRight
  | add | sub
  | mul | div | mod
  | pow
deriving DecidableEq, Repr

namespace BinaryOp

/-- Binding power, from 1 for the loosest. -/
def precedence : BinaryOp → Nat
  | .or => 1
  | .and => 2
  | .bitOr => 3
  | .bitXor => 4
  | .bitAnd => 5
  | .equal | .notEqual => 6
  | .less | .lessEqual | .greater | .greaterEqual => 7
  | .shiftLeft | .shiftRight => 8
  | .add | .sub => 9
  | .mul | .div | .mod => 10
  | .pow => 11

/-- Only powers group to the right. -/
def groupsRight (op : BinaryOp) : Bool := op == .pow

def text : BinaryOp → String
  | .or => "||"
  | .and => "&&"
  | .bitOr => "|"
  | .bitXor => "^"
  | .bitAnd => "&"
  | .equal => "=="
  | .notEqual => "!="
  | .less => "<"
  | .lessEqual => "<="
  | .greater => ">"
  | .greaterEqual => ">="
  | .shiftLeft => "<<"
  | .shiftRight => ">>"
  | .add => "+"
  | .sub => "-"
  | .mul => "*"
  | .div => "/"
  | .mod => "%"
  | .pow => "**"

def all : List BinaryOp :=
  [.or, .and, .bitOr, .bitXor, .bitAnd, .equal, .notEqual, .less, .lessEqual, .greater,
    .greaterEqual, .shiftLeft, .shiftRight, .add, .sub, .mul, .div, .mod, .pow]

end BinaryOp

/-- What joins a receiver or a namespace to a name; the dynamic forms take a computed name. -/
inductive AccessOp where
  | member
  | dynamicMember
  | scope
  | dynamicScope
deriving DecidableEq, Repr

namespace AccessOp

def text : AccessOp → String
  | .member => "."
  | .dynamicMember => ".$"
  | .scope => "::"
  | .dynamicScope => "::$"

def all : List AccessOp := [.member, .dynamicMember, .scope, .dynamicScope]

end AccessOp

inductive Property where
  | length
  | red | green | blue | alpha
  | isInt | isFloat | isString | isObject | isArray
  | classId
deriving DecidableEq, Repr

namespace Property

def text : Property → String
  | .length => "length"
  | .red => "red"
  | .green => "green"
  | .blue => "blue"
  | .alpha => "alpha"
  | .isInt => "isint"
  | .isFloat => "isfloat"
  | .isString => "isstring"
  | .isObject => "isobject"
  | .isArray => "isarray"
  | .classId => "classid"

def all : List Property :=
  [.length, .red, .green, .blue, .alpha, .isInt, .isFloat, .isString, .isObject, .isArray,
    .classId]

end Property

inductive Keyword where
  | function | class_ | property | global
  | var | return_ | if_ | else_ | while_ | do_ | foreach | in_
  | new | this
  | true_ | false_ | nothing
deriving DecidableEq, Repr

namespace Keyword

def text : Keyword → String
  | .function => "function"
  | .class_ => "class"
  | .property => "property"
  | .global => "global"
  | .var => "var"
  | .return_ => "return"
  | .if_ => "if"
  | .else_ => "else"
  | .while_ => "while"
  | .do_ => "do"
  | .foreach => "foreach"
  | .in_ => "in"
  | .new => "new"
  | .this => "this"
  | .true_ => "true"
  | .false_ => "false"
  | .nothing => "nothing"

def all : List Keyword :=
  [.function, .class_, .property, .global, .var, .return_, .if_, .else_, .while_, .do_, .foreach,
    .in_, .new, .this, .true_, .false_, .nothing]

def beginsStatement : Keyword → Bool
  | .function | .class_ | .property | .global | .var | .return_ | .if_ | .while_ | .do_
  | .foreach => true
  | _ => false

end Keyword

inductive TokenKind where
  | leftParen | rightParen | leftBrace | rightBrace | leftBracket | rightBracket
  | comma | semicolon | colon
  | access (op : AccessOp)
  | assign | bang | tilde
  | binary (op : BinaryOp)
  | integer | float | string | identifier
  | keyword (k : Keyword)
  | property (p : Property)
  | blank | comment | invalid | eof
deriving DecidableEq, Repr

namespace TokenKind

def ofWord (w : String) : TokenKind :=
  match Keyword.all.find? (·.text == w) with
  | some k => .keyword k
  | none =>
    match Property.all.find? (·.text == w) with
    | some p => .property p
    | none => .identifier

def lexeme? : TokenKind → Option String
  | .leftParen => "("
  | .rightParen => ")"
  | .leftBrace => "\x7b"
  | .rightBrace => "\x7d"
  | .leftBracket => "["
  | .rightBracket => "]"
  | .comma => ","
  | .semicolon => ";"
  | .colon => ":"
  | .access op => op.text
  | .assign => "="
  | .bang => "!"
  | .tilde => "~"
  | .binary op => op.text
  | .keyword k => k.text
  | .property p => p.text
  | .integer | .float | .string | .identifier | .blank | .comment | .invalid | .eof => none

def operator? : TokenKind → Option BinaryOp
  | .binary op => some op
  | _ => none

def property? : TokenKind → Option Property
  | .property p => some p
  | _ => none

def precedence? : TokenKind → Option Nat
  | .binary op => some op.precedence
  | _ => none

def groupsRight : TokenKind → Bool
  | .binary op => op.groupsRight
  | _ => false

def isAccess : TokenKind → Bool
  | .access _ => true
  | _ => false

def isProperty : TokenKind → Bool
  | .property _ => true
  | _ => false

def beginsStatement : TokenKind → Bool
  | .keyword k => k.beginsStatement
  | _ => false

def isTrivia : TokenKind → Bool
  | .blank | .comment => true
  | _ => false

def name : TokenKind → String
  | .leftParen => "LeftParen"
  | .rightParen => "RightParen"
  | .leftBrace => "LeftBrace"
  | .rightBrace => "RightBrace"
  | .leftBracket => "LeftBracket"
  | .rightBracket => "RightBracket"
  | .comma => "Comma"
  | .semicolon => "Semicolon"
  | .colon => "Colon"
  | .access .member => "Dot"
  | .access .dynamicMember => "DotDollar"
  | .access .scope => "ColonColon"
  | .access .dynamicScope => "ColonColonDollar"
  | .assign => "Equal"
  | .bang => "Bang"
  | .tilde => "Tilde"
  | .binary .or => "PipePipe"
  | .binary .and => "AmpAmp"
  | .binary .bitOr => "Pipe"
  | .binary .bitXor => "Caret"
  | .binary .bitAnd => "Ampersand"
  | .binary .equal => "EqualEqual"
  | .binary .notEqual => "BangEqual"
  | .binary .less => "Less"
  | .binary .lessEqual => "LessEqual"
  | .binary .greater => "Greater"
  | .binary .greaterEqual => "GreaterEqual"
  | .binary .shiftLeft => "ShiftLeft"
  | .binary .shiftRight => "ShiftRight"
  | .binary .add => "Plus"
  | .binary .sub => "Minus"
  | .binary .mul => "Star"
  | .binary .div => "Slash"
  | .binary .mod => "Percent"
  | .binary .pow => "StarStar"
  | .integer => "Integer"
  | .float => "Float"
  | .string => "String"
  | .identifier => "Identifier"
  | .keyword .function => "Function"
  | .keyword .class_ => "Class"
  | .keyword .property => "Property"
  | .keyword .global => "Global"
  | .keyword .var => "Var"
  | .keyword .return_ => "Return"
  | .keyword .if_ => "If"
  | .keyword .else_ => "Else"
  | .keyword .while_ => "While"
  | .keyword .do_ => "Do"
  | .keyword .foreach => "Foreach"
  | .keyword .in_ => "In"
  | .keyword .new => "New"
  | .keyword .this => "This"
  | .keyword .true_ => "True"
  | .keyword .false_ => "False"
  | .keyword .nothing => "Nothing"
  | .property .length => "Length"
  | .property .red => "Red"
  | .property .green => "Green"
  | .property .blue => "Blue"
  | .property .alpha => "Alpha"
  | .property .isInt => "IsInt"
  | .property .isFloat => "IsFloat"
  | .property .isString => "IsString"
  | .property .isObject => "IsObject"
  | .property .isArray => "IsArray"
  | .property .classId => "ClassId"
  | .blank => "Whitespace"
  | .comment => "Comment"
  | .invalid => "Invalid"
  | .eof => "Eof"

/-- How messages speak of a kind: its spelling between single quotes where it has one. -/
def display (k : TokenKind) : String :=
  match k.lexeme? with
  | some text => "'" ++ text ++ "'"
  | none =>
    match k with
    | .integer => "integer"
    | .float => "float"
    | .string => "string"
    | .identifier => "identifier"
    | .eof => "end of file"
    | _ => k.name

def all : List TokenKind :=
  ([.leftParen, .rightParen, .leftBrace, .rightBrace, .leftBracket, .rightBracket, .comma,
    .semicolon, .colon, .assign, .bang, .tilde, .integer, .float, .string, .identifier, .blank,
    .comment, .invalid, .eof] : List TokenKind)
    ++ AccessOp.all.map .access ++ BinaryOp.all.map .binary ++ Keyword.all.map .keyword
    ++ Property.all.map .property

def ofName? (w : String) : Option TokenKind := all.find? (·.name == w)

end TokenKind

end Lss
