import Lss.Token.Lexer
import Lss.Tree.Parser.Stmt

/-!
Declarations and whole units:

    unit     → ("global" NAME ";" | function | class)*
    function → "function" NAME "(" (NAME ("," NAME)*)? ")" block
    class    → "class" NAME (":" NAME)? "{" ("property" NAME ";" | function)* "}"

A declaration or member that cannot be read is dropped, and parsing goes on behind it.
-/
namespace Lss.Parser

def namedItem (keyword : Keyword) (nameContext endContext : String) (fin : Token)
    (ts : List Token) : Reply Token ts :=
  (expect (.keyword keyword) "" fin ts).start fun _ rest h =>
    (identifier nameContext fin rest).next h fun name rest h =>
      (expect .semicolon endContext fin rest).next h fun _ rest h => .done name rest [] h

def globalDeclaration : Token → (ts : List Token) → Reply Token ts :=
  namedItem .global "after 'global'" "after global declaration"

def propertyDeclaration : Token → (ts : List Token) → Reply Token ts :=
  namedItem .property "for property name" "after property declaration"

/-- Names after the first, each behind a comma; `acc` holds earlier ones in reverse. -/
def parametersTail {all : List Token} (fin : Token) (acc : List Token) (ts : List Token)
    (h : Shorter ts all) : Reply (List Token) all :=
  match ts with
  | [] => .done acc.reverse [] [] h
  | t :: rest =>
    if t.kind = .comma then
      match identifier "for parameter name" fin rest with
      | .done name rest' _ h' => parametersTail fin (name :: acc) rest' (h'.behind h)
      | .gaveUp _ rest' notes h' => .gaveUp true rest' notes (h.gaveUp_behind h')
    else .done acc.reverse (t :: rest) [] h
termination_by ts.length

/-- The closing parenthesis after parameters. Functions take so many and no more. -/
def finishParameters (function : Token) (names : List Token) (fin : Token) (ts : List Token) :
    Reply (List Token) ts :=
  (expect .rightParen "after parameters" fin ts).start fun paren rest h =>
    let excess :=
      if ParseFault.maxArguments < names.length then
        [(ParseFault.tooManyParameters function.text).at_ paren]
      else []
    .done names rest excess h

def parameters (function : Token) (fin : Token) (ts : List Token) : Reply (List Token) ts :=
  (expect .leftParen "after function name" fin ts).start fun _ rest h =>
    if peek fin rest = .rightParen then (finishParameters function [] fin rest).last h
    else
      (identifier "for parameter name" fin rest).next h fun name rest h =>
        (parametersTail fin [name] rest h).start fun names rest h =>
          (finishParameters function names fin rest).last h

def subroutine (fin : Token) (ts : List Token) : Reply Subroutine ts :=
  (expect (.keyword .function) "" fin ts).start fun _ rest h =>
    (identifier "for function name" fin rest).next h fun name rest h =>
      (parameters name fin rest).next h fun names rest h =>
        (block fin rest).next h fun body rest h => .done ⟨name, names, body⟩ rest [] h

def member (fin : Token) (decl : ClassDecl) (ts : List Token) : Reply ClassDecl ts :=
  match peek fin ts with
  | .keyword .property =>
    (propertyDeclaration fin ts).start fun p rest h =>
      .done { decl with properties := p :: decl.properties } rest [] h
  | .keyword .function =>
    (subroutine fin ts).start fun m rest h =>
      .done { decl with methods := m :: decl.methods } rest [] h
  | _ => .fail .expectedClassMember fin ts

def finishClass (decl : ClassDecl) : ClassDecl :=
  { decl with properties := decl.properties.reverse, methods := decl.methods.reverse }

/-- Members up to the closing brace. The class so far, and its complaints, are kept in reverse. A
missing brace is only complained of. -/
def members {all : List Token} (fin : Token) (decl : ClassDecl) (notes : List Diagnostic)
    (ts : List Token) (h : Shorter ts all) : Reply ClassDecl all :=
  match ts with
  | [] =>
    let missing := (ParseFault.expectedToken .rightBrace "after class body" fin).at_ fin
    .done (finishClass decl) [] (notes.reverse ++ [missing]) h
  | t :: rest =>
    if t.kind = .rightBrace then .done (finishClass decl) rest notes.reverse h.of_cons
    else
      match member fin decl (t :: rest) with
      | .done decl rest' more h' =>
        members fin decl (more.reverse ++ notes) rest' (h'.within h)
      | .gaveUp moved rest' more h' =>
        have _shorter := recover_shorter h'
        members fin decl (more.reverse ++ notes) (recover moved rest') (recover_within h' h)
termination_by ts.length
decreasing_by all_goals (simp only [Shorter, List.length_cons] at *; omega)

/-- The name of a base class, if there is one, and the brace before the members. -/
def classHead (fin : Token) (ts : List Token) : Reply (Option Token) ts :=
  let open_ (base : Option Token) (ts : List Token) : Reply (Option Token) ts :=
    (expect .leftBrace "before class body" fin ts).start fun _ rest h => .done base rest [] h
  match ts with
  | [] => open_ none []
  | t :: rest =>
    if t.kind = .colon then
      (identifier "for base class name" fin rest).next (.tail t rest) fun base rest h =>
        (open_ (some base) rest).last h
    else open_ none (t :: rest)

def classDeclaration (fin : Token) (ts : List Token) : Reply ClassDecl ts :=
  (expect (.keyword .class_) "" fin ts).start fun _ rest h =>
    (identifier "for class name" fin rest).next h fun name rest h =>
      (classHead fin rest).next h fun base rest h =>
        members fin ⟨name, base, [], []⟩ [] rest h

def declaration (fin : Token) (u : SourceUnit) (ts : List Token) : Reply SourceUnit ts :=
  match peek fin ts with
  | .keyword .global =>
    (globalDeclaration fin ts).start fun g rest h =>
      .done { u with globals := g :: u.globals } rest [] h
  | .keyword .function =>
    (subroutine fin ts).start fun f rest h =>
      .done { u with functions := f :: u.functions } rest [] h
  | .keyword .class_ =>
    (classDeclaration fin ts).start fun c rest h =>
      .done { u with classes := c :: u.classes } rest [] h
  | _ => .fail .expectedDeclaration fin ts

def finishUnit (u : SourceUnit) : SourceUnit :=
  { u with
    globals := u.globals.reverse
    functions := u.functions.reverse
    classes := u.classes.reverse }

/-- Declarations up to the end. The unit so far, and its complaints, are kept in reverse. -/
def declarations (fin : Token) (u : SourceUnit) (notes : List Diagnostic) (ts : List Token) :
    SourceUnit × List Diagnostic :=
  match ts with
  | [] => (finishUnit u, notes.reverse)
  | t :: rest =>
    match declaration fin u (t :: rest) with
    | .done u rest' more _shorter => declarations fin u (more.reverse ++ notes) rest'
    | .gaveUp moved rest' more h' =>
      have _shorter := recover_shorter h'
      declarations fin u (more.reverse ++ notes) (recover moved rest')
termination_by ts.length
decreasing_by all_goals (simp only [Shorter, List.length_cons] at *; omega)

end Lss.Parser

namespace Lss

structure TokenStream where
  rest : List Token
  fin : Token

namespace TokenStream

/-- The significant tokens up to the first end mark. Where none closes the list, one is placed at
the last token. -/
def ofTokens (tokens : List Token) : TokenStream :=
  let kept := tokens.filter fun t => !t.kind.isTrivia
  let isEnd (t : Token) : Bool := t.kind == .eof
  let last := (kept.getLast?.map (·.span)).getD .synthetic
  ⟨kept.takeWhile fun t => !isEnd t, (kept.find? isEnd).getD ⟨.eof, "", last⟩⟩

/-- Reads an expression; what is left shows how far it came, also on failure. -/
def expression (s : TokenStream) : Option Expr × TokenStream × List Diagnostic :=
  match Parser.expression s.fin s.rest with
  | .done e rest notes _ => (some e, { s with rest }, notes)
  | .gaveUp _ rest notes _ => (none, { s with rest }, notes)

def synchronize (s : TokenStream) : TokenStream :=
  { s with rest := Parser.synchronize 0 s.rest }

/-- Reads the declarations that are left. The unit bears the file name of the next token. -/
def parse (s : TokenStream) : SourceUnit × List Diagnostic :=
  Parser.declarations s.fin { file := (s.rest.headD s.fin).span.file } [] s.rest

end TokenStream

namespace SourceUnit

def ofTokens (tokens : List Token) : SourceUnit × List Diagnostic :=
  (TokenStream.ofTokens tokens).parse

/-- The unit that a text spells; lexical complaints come before grammatical ones. -/
def ofSource (source : String) (file : Option String) : SourceUnit × List Diagnostic :=
  let (tokens, lexical) := scan source file false
  let (u, grammatical) := ofTokens tokens
  (u, lexical ++ grammatical)

end SourceUnit

end Lss
