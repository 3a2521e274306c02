import Lss.Tree.Basic

/-!
Trees as text. Printing is structural: parentheses stand only where the tree has a grouping, and
tokens print with their own spelling. Each level of nesting is indented by one `unit`.
-/
namespace Lss

namespace Expr

mutual

def text : Expr → String
  | .literal t | .variable t => t.text
  | .grouping e => "(" ++ e.text ++ ")"
  | .unary op e true => op.text ++ e.text
  | .unary op e false => e.text ++ op.text
  | .binary l op r =>
    if op.kind.isAccess then l.text ++ op.text ++ r.text
    else l.text ++ " " ++ op.text ++ " " ++ r.text
  | .index a i _ => a.text ++ "[" ++ i.text ++ "]"
  | .array [] _ => "[]"
  | .array (e :: es) _ => "[" ++ moreText e.text es ++ "]"
  | .call f [] _ => f.text ++ "()"
  | .call f (e :: es) _ => f.text ++ "(" ++ moreText e.text es ++ ")"
  | .construct type none _ => "new " ++ type.text
  | .construct type (some []) _ => "new " ++ type.text ++ "()"
  | .construct type (some (e :: es)) _ => "new " ++ type.text ++ "(" ++ moreText e.text es ++ ")"
  | .pending type => "new " ++ type.text
termination_by structural e => e

def moreText (out : String) : List Expr → String
  | [] => out
  | e :: es => moreText (out ++ ", " ++ e.text) es
termination_by structural es => es

end

end Expr

namespace Stmt

def isConditional : Stmt → Bool
  | .if_ (some _) _ _ _ => true
  | _ => false

def indent (unit : String) (level : Nat) : String := String.join (List.replicate level unit)

/-- What stands before the body of a control statement: braces stay on the line, any other body
goes on a line of its own. -/
def lead (unit : String) (level : Nat) (body : Stmt) : String :=
  if body.isBlock then " " else "\n" ++ indent unit (level + 1)

def bodyLevel (level : Nat) (body : Stmt) : Nat := if body.isBlock then level else level + 1

def resume (unit : String) (level : Nat) (body : Stmt) : String :=
  if body.isBlock then " " else "\n" ++ indent unit level

/-- As `lead`, for the arm of an `else`, where another `if` stays on the line too. -/
def armLead (unit : String) (level : Nat) (arm : Stmt) : String :=
  if arm.isConditional then " " else lead unit level arm

def armLevel (level : Nat) (arm : Stmt) : Nat :=
  if arm.isConditional then level else bodyLevel level arm

end Stmt

def commaList (tokens : List Token) : String := ", ".intercalate (tokens.map (·.text))

namespace ClassDeclOf

def headText {σ : Type} (unit : String) (level : Nat) (c : ClassDeclOf σ) : String :=
  let base :=
    match c.base with
    | some base => " : " ++ base.text
    | none => ""
  c.properties.foldl
    (fun out p => out ++ Stmt.indent unit (level + 1) ++ "property " ++ p.text ++ ";\n")
    ("class " ++ c.name.text ++ base ++ " \x7b\n")

end ClassDeclOf

def SubroutineOf.headText {σ : Type} (s : SubroutineOf σ) : String :=
  "function " ++ s.name.text ++ "(" ++ commaList s.parameters ++ ") "

namespace Stmt

mutual

/-- A statement at a level, without indentation before it or a line end after it. -/
def text (unit : String) (level : Nat) : Stmt → String
  | .block ⟨body, _⟩ => "\x7b\n" ++ lines "" unit (level + 1) body ++ indent unit level ++ "\x7d"
  | .classDecl ⟨name, base, properties, methods⟩ =>
    methodLines (ClassDeclOf.headText unit level ⟨name, base, properties, methods⟩) unit
        (level + 1) properties.isEmpty methods
      ++ indent unit level ++ "\x7d"
  | .property name => "property " ++ name.text ++ ";"
  | .subroutine ⟨name, parameters, ⟨body, span⟩⟩ =>
    SubroutineOf.headText ⟨name, parameters, ⟨body, span⟩⟩
      ++ "\x7b\n" ++ lines "" unit (level + 1) body ++ indent unit level ++ "\x7d"
  | .global name => "global " ++ name.text ++ ";"
  | .expr e => e.text ++ ";"
  | .return_ none _ => "return;"
  | .return_ (some e) _ => "return " ++ e.text ++ ";"
  | .if_ none body _ _ => "else" ++ lead unit level body ++ text unit (bodyLevel level body) body
  | .if_ (some c) body none _ =>
    "if (" ++ c.text ++ ")" ++ lead unit level body ++ text unit (bodyLevel level body) body
  | .if_ (some c) body (some (.if_ none arm _ _)) _ =>
    "if (" ++ c.text ++ ")" ++ lead unit level body ++ text unit (bodyLevel level body) body
      ++ resume unit level body ++ "else" ++ armLead unit level arm
      ++ text unit (armLevel level arm) arm
  | .if_ (some c) body (some arm) _ =>
    "if (" ++ c.text ++ ")" ++ lead unit level body ++ text unit (bodyLevel level body) body
      ++ resume unit level body ++ "else" ++ armLead unit level arm
      ++ text unit (armLevel level arm) arm
  | .while_ c body =>
    "while (" ++ c.text ++ ")" ++ lead unit level body ++ text unit (bodyLevel level body) body
  | .doWhile body c =>
    "do" ++ lead unit level body ++ text unit (bodyLevel level body) body
      ++ resume unit level body ++ "while (" ++ c.text ++ ");"
  | .foreach x c body =>
    "foreach (" ++ x.text ++ " in " ++ c.text ++ ")" ++ lead unit level body
      ++ text unit (bodyLevel level body) body
  | .assign t v => t.text ++ " = " ++ v.text ++ ";"
  | .var name none => "var " ++ name.text ++ ";"
  | .var name (some e) => "var " ++ name.text ++ " = " ++ e.text ++ ";"
termination_by structural s => s

def lines (out : String) (unit : String) (level : Nat) : List Stmt → String
  | [] => out
  | s :: ss => lines (out ++ indent unit level ++ text unit level s ++ "\n") unit level ss
termination_by structural ss => ss

/-- Methods with an empty line before each, the very first member of a class excepted. -/
def methodLines (out : String) (unit : String) (level : Nat) (isFirst : Bool) :
    List Subroutine → String
  | [] => out
  | ⟨name, parameters, ⟨body, span⟩⟩ :: ms =>
    methodLines
      (out ++ (if isFirst then "" else "\n") ++ indent unit level
        ++ SubroutineOf.headText ⟨name, parameters, ⟨body, span⟩⟩
        ++ "\x7b\n" ++ lines "" unit (level + 1) body ++ indent unit level ++ "\x7d\n")
      unit level false ms
termination_by structural ms => ms

end

def line (unit : String) (s : Stmt) : String := s.text unit 0 ++ "\n"

end Stmt

def spaces (n : Nat) : String := String.ofList (List.replicate n ' ')

namespace SourceUnit

/-- Globals, functions, classes, with an empty line between two that are not both globals. -/
def text (unit : String) (u : SourceUnit) : String :=
  let globals := u.globals.foldl (fun out g => out ++ "global " ++ g.text ++ ";\n") ""
  let declare (acc : String × Bool) (s : Stmt) : String × Bool :=
    (acc.1 ++ (if acc.2 then "" else "\n") ++ s.text unit 0 ++ "\n", false)
  let functions := (u.functions.map Stmt.subroutine).foldl declare (globals, u.globals.isEmpty)
  ((u.classes.map Stmt.classDecl).foldl declare functions).1

end SourceUnit

end Lss
