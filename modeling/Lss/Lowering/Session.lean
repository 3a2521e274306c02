import Lss.Container.Link
import Lss.Lowering.Stmt
import Lss.Tree.Parser.Unit

/-!
Compilation of units into a container. All declarations of all units are registered first, so that
a name may be used before, or in another unit than, its declaration. Bodies follow: those of the
functions, then class by class those of the methods. A subclass starts as a copy of its base.
-/
namespace Lss

/-- What a compilation gives: the container, unless there was a semantic error. -/
structure Compilation where
  container : Option Container
  diagnostics : List Diagnostic

def Compilation.hasErrors (c : Compilation) : Bool := c.diagnostics.any Diagnostic.isError

/-- A compilation under way. Errors and warnings are kept latest first. -/
structure Session where
  container : Container
  errors : List CompileError := []
  warnings : List Diagnostic := []

namespace Session

def fail (s : Session) (e : CompileError) : Session := { s with errors := e :: s.errors }

/-- Parameters of the functions known so far; of several with one name, the last counts. -/
abbrev Signatures := Std.TreeMap String UInt8

def signatures (c : Container) : Signatures :=
  c.functions.foldl (fun m f => m.insert f.name f.parameterCount) {}

structure Registered where
  known : Signatures
  bodies : List (Subroutine × UInt8) := []
  errors : List CompileError := []

def Registered.add (r : Registered) (f : Subroutine) : Registered :=
  if r.known.contains f.name.text then
    { r with errors := .duplicateFunction f.name.text f.name.span :: r.errors }
  else
    let count := UInt8.ofNat (min f.parameters.length 255)
    { r with known := r.known.insert f.name.text count, bodies := (f, count) :: r.bodies }

/-- Registers a global; one that is there already keeps its place. -/
def addGlobal (s : Session) (name : Token) : Session :=
  let ⟨⟨major, minor, strings, symbols, globals, functions, classes⟩, errors, warnings⟩ := s
  match globals.intern name.text with
  | (.ok _, globals) =>
    ⟨⟨major, minor, strings, symbols, globals, functions, classes⟩, errors, warnings⟩
  | (.error e, globals) =>
    ⟨⟨major, minor, strings, symbols, globals, functions, classes⟩, .format e :: errors, warnings⟩

def addClass (taken : Container) (acc : List ClassDecl × List CompileError) (c : ClassDecl) :
    List ClassDecl × List CompileError :=
  if (taken.findClass? c.name.text).isSome || acc.1.any (·.name.text == c.name.text) then
    (acc.1, .duplicateClass c.name.text c.name.span :: acc.2)
  else (c :: acc.1, acc.2)

/-- Layouts by name; of several with one name, the latest counts. -/
def layouts (c : Container) (decls : List ClassDecl) : Std.TreeMap String ClassLayout :=
  (ClassLayout.all c decls).foldr (fun l m => m.insert l.name l) {}

/-- Runs a computation on the tables of a session. The warnings of one that fails are dropped. -/
def run {α : Type} (s : Session) (f : Lower α) : Option α × Session :=
  let ⟨⟨major, minor, strings, symbols, globals, functions, classes⟩, errors, warnings⟩ := s
  match f.run.run ⟨strings, symbols, []⟩ with
  | (.ok a, ⟨strings, symbols, more⟩) =>
    (some a,
      ⟨⟨major, minor, strings, symbols, globals, functions, classes⟩, errors, more ++ warnings⟩)
  | (.error e, ⟨strings, symbols, _⟩) =>
    (none, ⟨⟨major, minor, strings, symbols, globals, functions, classes⟩, e :: errors, warnings⟩)

def addFunction (env : Env) : List FunctionEntry × Session → Subroutine × UInt8 →
    List FunctionEntry × Session
  | (entries, s), (f, count) =>
    let (code, s) := s.run (lowerSubroutine env f)
    (⟨f.name.text, count, code.getD []⟩ :: entries, s)

def addProperty : ClassEntry × Session → Token → ClassEntry × Session
  | (entry, s), p =>
    match s.run (Lower.symbol p.text) with
    | (some symbol, s) =>
      (if entry.hasProperty symbol then entry
        else { entry with properties := entry.properties ++ [symbol] }, s)
    | (none, s) => (entry, s)

/-- Puts a method in the place of an inherited one of the same name, else at the end. -/
def putMethod (m : MethodEntry) : List MethodEntry → List MethodEntry
  | [] => [m]
  | n :: ns => if n.symbol = m.symbol then m :: ns else n :: putMethod m ns

/-- A class in the making, the names of its methods so far, and the session. -/
structure ClassDraft where
  entry : ClassEntry
  seen : List String := []
  session : Session

def addMethod (env : Env) : ClassDraft → Subroutine → ClassDraft
  | ⟨entry, seen, session⟩, m =>
    if seen.contains m.name.text then
      ⟨entry, seen, session.fail (.duplicateFunction m.name.text m.name.span)⟩
    else
      let seen := m.name.text :: seen
      match session.run (Lower.symbol m.name.text) with
      | (none, session) => ⟨entry, seen, session⟩
      | (some symbol, session) =>
        match session.run (lowerSubroutine env m) with
        | (none, session) => ⟨entry, seen, session⟩
        | (some code, session) =>
          ⟨{ entry with methods := putMethod ⟨symbol, code⟩ entry.methods }, seen, session⟩

def addClassEntry (declared : Declared) (s : Session) (decl : ClassDecl) : Session :=
  let base : ClassEntry :=
    (decl.base.bind fun b => s.container.classes.find? (·.name == b.text)).getD { name := "" }
  let (entry, s) := decl.properties.foldl addProperty ({ base with name := decl.name.text }, s)
  let env : Env := { declared with owner := declared.classes[decl.name.text]? }
  let d := decl.methods.foldl (addMethod env) { entry, session := s }
  { d.session with
    container := { d.session.container with classes := d.session.container.classes ++ [d.entry] } }

end Session

namespace Container

/-- Adds units to a container. Its tables, functions and classes keep their places, and its names
count as declared. -/
def compile (c : Container) (settings : Settings) (units : List SourceUnit) : Compilation :=
  let registered := (units.flatMap (·.functions)).foldl Session.Registered.add
    { known := Session.signatures c }
  let s : Session := { container := c, errors := registered.errors }
  let s := (units.flatMap (·.globals)).foldl Session.addGlobal s
  let (decls, errors) := (units.flatMap (·.classes)).foldl (Session.addClass c) ([], s.errors)
  let decls := decls.reverse
  let (order, broken) := orderClasses decls c
  let decls := order.filterMap (decls.toArray[·]?)
  let s := { s with errors := broken.reverse ++ errors }
  let declared : Declared :=
    { globals := s.container.globals
      functions := registered.known
      classes := Session.layouts c decls
      lineNumbers := settings.lineNumbers }
  let (functions, s) :=
    registered.bodies.reverse.foldl (Session.addFunction { declared with }) ([], s)
  let s := decls.foldl (Session.addClassEntry declared) s
  let made := { s.container with functions := c.functions ++ functions.reverse }
  match s.errors with
  | [] =>
    match made.link with
    | .ok linked => ⟨some linked, s.warnings.reverse⟩
    | .error name => ⟨none, (CompileError.ofUnlinked name).toDiagnostic :: s.warnings.reverse⟩
  | errors => ⟨none, errors.reverse.map (·.toDiagnostic) ++ s.warnings.reverse⟩

def ofSettings (settings : Settings) : Container :=
  { major := settings.major, minor := settings.minor }

/-- Parses and compiles one text. What is wrong with its tokens and grammar comes first, and alone
keeps nothing from being compiled. -/
def compileSource (settings : Settings) (source : String) (file : Option String) : Compilation :=
  let (u, found) := SourceUnit.ofSource source file
  let result := (ofSettings settings).compile settings [u]
  { result with diagnostics := found ++ result.diagnostics }

end Container

end Lss
