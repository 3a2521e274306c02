import Lss.Text.Json
import Lss.Tree.Basic

/-!
Trees as JSON documents: every node is an object with its kind as the only key.
-/
namespace Lss

def Span.document (s : Span) : Json :=
  .array ([Json.nat s.start, .nat s.line, .nat s.length] ++ (s.file.map Json.string).toList)

def Token.document (t : Token) : Json :=
  .object [("kind", .string t.kind.name), ("text", .string t.text), ("span", t.span.document)]

namespace Json

def node (kind : String) (content : Json) : Json := .object [(kind, content)]

end Json

namespace Expr

mutual

def document : Expr → Json
  | .literal t => .node "Literal" t.document
  | .variable t => .node "Variable" t.document
  | .grouping e => .node "Grouping" (document e)
  | .unary op e leads =>
    .node "Unary" (.object
      [("operator", op.document), ("operand", document e), ("prefix", .boolean leads)])
  | .binary l op r =>
    .node "Binary" (.object
      [("left", document l), ("operator", op.document), ("right", document r)])
  | .index a i s =>
    .node "ArrayAccess" (.object
      [("array", document a), ("index", document i), ("span", s.document)])
  | .array es s =>
    .node "ArrayLiteral" (.object
      [("elements", .array (documents [] es)), ("span", s.document)])
  | .call f es s =>
    .node "Call" (.object
      [("target", document f), ("arguments", .array (documents [] es)), ("span", s.document)])
  | .construct t none s =>
    .node "Constructor" (.object
      [("type_name", t.document), ("arguments", .null), ("span", s.document)])
  | .construct t (some es) s =>
    .node "Constructor" (.object
      [("type_name", t.document), ("arguments", .array (documents [] es)), ("span", s.document)])
  | .pending t => .node "ConstructorPending" t.document
termination_by structural e => e

def documents (acc : List Json) : List Expr → List Json
  | [] => acc.reverse
  | e :: es => documents (document e :: acc) es
termination_by structural es => es

end

end Expr

namespace Stmt

def blockDocument (statements : List Json) (span : Span) : Json :=
  .object [("statements", .array statements), ("span", span.document)]

def subroutineDocument (name : Token) (parameters : List Token) (body : Json) : Json :=
  .object
    [("name", name.document), ("parameters", .array (parameters.map Token.document)),
      ("body", body)]

def classDocument (name : Token) (base : Option Token) (properties : List Token)
    (methods : List Json) : Json :=
  .object
    [("name", name.document), ("superclass", .orNull (base.map Token.document)),
      ("properties", .array (properties.map Token.document)), ("methods", .array methods)]

mutual

def document : Stmt → Json
  | .block ⟨body, span⟩ => .node "Block" (blockDocument (documents [] body) span)
  | .classDecl ⟨name, base, properties, methods⟩ =>
    .node "Class" (classDocument name base properties (methodDocuments [] methods))
  | .property t => .node "Property" t.document
  | .subroutine ⟨name, parameters, ⟨body, span⟩⟩ =>
    .node "Subroutine"
      (subroutineDocument name parameters (blockDocument (documents [] body) span))
  | .global t => .node "Global" t.document
  | .expr e => .node "Expression" e.document
  | .return_ v s =>
    .node "Return" (.object [("value", .orNull (v.map Expr.document)), ("span", s.document)])
  | .if_ c body (some arm) s =>
    .node "If" (.object
      [("condition", .orNull (c.map Expr.document)), ("body", document body),
        ("else_branch", document arm), ("span", s.document)])
  | .if_ c body none s =>
    .node "If" (.object
      [("condition", .orNull (c.map Expr.document)), ("body", document body),
        ("else_branch", .null), ("span", s.document)])
  | .while_ c body => .node "While" (.object [("condition", c.document), ("body", document body)])
  | .doWhile body c =>
    .node "DoWhile" (.object [("body", document body), ("condition", c.document)])
  | .foreach x c body =>
    .node "ForEach" (.object
      [("element", x.document), ("collection", c.document), ("body", document body)])
  | .assign t v => .node "Assignment" (.object [("target", t.document), ("value", v.document)])
  | .var t e =>
    .node "VariableDeclaration" (.object
      [("name", t.document), ("initializer", .orNull (e.map Expr.document))])
termination_by structural s => s

def documents (acc : List Json) : List Stmt → List Json
  | [] => acc.reverse
  | s :: ss => documents (document s :: acc) ss
termination_by structural ss => ss

def methodDocuments (acc : List Json) : List Subroutine → List Json
  | [] => acc.reverse
  | ⟨name, parameters, ⟨body, span⟩⟩ :: ms =>
    methodDocuments
      (subroutineDocument name parameters (blockDocument (documents [] body) span) :: acc) ms
termination_by structural ms => ms

end

end Stmt

def SourceUnit.document (u : SourceUnit) : Json :=
  let decl (c : ClassDecl) : Json :=
    Stmt.classDocument c.name c.base c.properties (Stmt.methodDocuments [] c.methods)
  .object
    [("file", .orNull (u.file.map Json.string)),
      ("globals", .array (u.globals.map Token.document)),
      ("functions", .array (Stmt.methodDocuments [] u.functions)),
      ("classes", .array (u.classes.map decl))]

end Lss
