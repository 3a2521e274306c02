import Lss.Command.Arguments
import Lss.Command.Config
import Lss.Container.Listing
import Lss.Container.View
import Lss.Files.Path
import Lss.Files.Programs

/-!
The command: compiles, decompiles, shows and checks files.
-/
namespace Lss

structure Outcome where
  exit : Nat := 0
  stdout : String := ""
  stderr : String := ""
deriving DecidableEq, Repr

structure Failure where
  about : String
  cause : Option String := none
deriving DecidableEq, Repr

def Failure.text (f : Failure) : String :=
  match f.cause with
  | none => "Error: " ++ f.about ++ "\n"
  | some cause => "Error: " ++ f.about ++ "\n\nCaused by:\n    " ++ cause ++ "\n"

def Failure.ofDecompileError (e : DecompileError) : Failure :=
  match e with
  | .file fault => ⟨e.message, some fault.message⟩
  | _ => ⟨e.message, none⟩

namespace Outcome

def fail (o : Outcome) (f : Failure) : Outcome :=
  { o with exit := 1, stderr := o.stderr ++ f.text }

def report (o : Outcome) (ds : List Diagnostic) : Outcome :=
  { o with stderr := o.stderr ++ String.join (ds.map fun d => d.text ++ "\n") }

end Outcome

namespace Command

variable {m : Type → Type} [Monad m]

def versionText : String := "lss 0.1.0\n"

def findConfig (store : FileStore m) : List String → m (Option String)
  | [] => return none
  | path :: paths => do
    if ← store.isThere path then return some path else findConfig store paths

/-- The configuration in the given file, or else in the nearest one. Without a file everything has
its default. -/
def loadConfig (store : FileStore m) (path : Option String) : m (Except Failure Config) := do
  let found ←
    match path with
    | some p => pure (some p)
    | none =>
      let dirs ← store.surroundings
      findConfig store (dirs.flatMap fun dir => Config.fileNames.map (Path.join dir))
  match found with
  | none => return .ok {}
  | some p =>
    if ← store.isThere p then
      match ← store.readText p with
      | .error fault => return .error ⟨fault.message, none⟩
      | .ok text =>
        match Config.ofText text with
        | .ok c => return .ok c
        | .error line => return .error ⟨"Failed to parse " ++ p ++ ": " ++ line, none⟩
    else return .ok {}

def errorCount (ds : List Diagnostic) : Nat := ds.countP Diagnostic.isError

def compile (store : FileStore m) (settings : Settings) (inputs : List String) (output : String) :
    m Outcome := do
  let c ← store.compileFiles settings inputs
  let o := ({} : Outcome).report c.diagnostics
  match c.container with
  | none =>
    return o.fail
      ⟨"compilation failed with " ++ toString (errorCount c.diagnostics) ++ " error(s)", none⟩
  | some container =>
    match container.encode with
    | .error e => return o.fail ⟨e.message, none⟩
    | .ok bytes =>
      match ← store.write output ⟨bytes.toArray⟩ with
      | .error fault => return o.fail ⟨"Failed to write " ++ output, some fault.message⟩
      | .ok _ => return o

def failureText (f : DecompileFailure) : String :=
  match f.owner with
  | some owner => owner ++ "." ++ f.subroutine ++ ": " ++ f.error.message ++ "\n"
  | none => f.subroutine ++ ": " ++ f.error.message ++ "\n"

def decompile (store : FileStore m) (input : String) (outDir : Option String) (indent : Nat) :
    m Outcome := do
  match ← store.decompileFile input with
  | .error e => return ({} : Outcome).fail (.ofDecompileError e)
  | .ok d =>
    let finish (o : Outcome) : Outcome :=
      let o := { o with stderr := o.stderr ++ String.join (d.failures.map failureText) }
      if d.isComplete then o
      else
        o.fail ⟨toString d.failures.length ++ " subroutine(s) could not be decompiled", none⟩
    match outDir with
    | none => return finish { stdout := d.unit.text (spaces indent) }
    | some dir =>
      match ← store.project d.unit (spaces indent) dir with
      | .error e => return ({} : Outcome).fail (.ofDecompileError e)
      | .ok _ => return finish {}

def dump (store : FileStore m) (input : String) (json : Bool) : m Outcome := do
  match ← store.read input with
  | .error fault =>
    return ({} : Outcome).fail ⟨"Failed to read " ++ input, some fault.message⟩
  | .ok bytes =>
    match Container.decode bytes.toList with
    | .error e => return ({} : Outcome).fail ⟨e.message, none⟩
    | .ok c => return { stdout := if json then c.document.text ++ "\n" else c.listing }

def check (store : FileStore m) (settings : Settings) (inputs : List String) : m Outcome := do
  let c ← store.compileFiles settings inputs
  let o := ({} : Outcome).report c.diagnostics
  let errors := errorCount c.diagnostics
  if errors = 0 ∧ c.container.isSome then
    return { o with stdout := toString inputs.length ++ " file(s) OK\n" }
  else return o.fail ⟨toString errors ++ " error(s)", none⟩

def run (store : FileStore m) (arguments : List String) : m Outcome := do
  match Invocation.ofArguments arguments with
  | none => return { exit := 2, stderr := "error: invalid arguments\n" }
  | some ⟨_, .version⟩ => return { stdout := versionText }
  | some ⟨path, action⟩ =>
    match ← loadConfig store path with
    | .error f => return ({} : Outcome).fail f
    | .ok config =>
      match action with
      | .version => return { stdout := versionText }
      | .compile inputs output lineNumbers =>
        let settings := config.compiler
        compile store { settings with lineNumbers := settings.lineNumbers || lineNumbers } inputs
          output
      | .decompile input outDir indent =>
        decompile store input (outDir.or config.outDir) (indent.getD config.indent)
      | .dump input json => dump store input json
      | .check inputs => check store config.compiler inputs

end Command

end Lss
