import Lss.Container.Codec
import Lss.Files.Store
import Lss.Lifting.Projection
import Lss.Lowering.Session

/-!
Programs and containers in files.
-/
namespace Lss

namespace FileStore

variable {m : Type → Type} [Monad m]

/-- Units of the files that can be read, latest first, what is wrong with the texts, and whether
some file could not be read. -/
structure Sources where
  units : List SourceUnit := []
  found : List Diagnostic := []
  unreadable : Bool := false

def addSource (store : FileStore m) (s : Sources) (path : String) : m Sources := do
  match ← store.readText path with
  | .ok source =>
    let (u, more) := SourceUnit.ofSource source (some path)
    return { s with units := u :: s.units, found := s.found ++ more }
  | .error fault =>
    let e := CompileError.unreadable path fault
    return { s with found := s.found ++ [e.toDiagnostic], unreadable := true }

/-- Compiles files as one program. One that cannot be read is reported, and then there is no
container. -/
def compileFiles (store : FileStore m) (settings : Settings) (paths : List String) :
    m Compilation := do
  let s ← paths.foldlM store.addSource {}
  let result := (Container.ofSettings settings).compile settings s.units.reverse
  return ⟨if s.unreadable then none else result.container, s.found ++ result.diagnostics⟩

/-- Reads a container from a file and decompiles it. The unit bears the name of the file. -/
def decompileFile (store : FileStore m) (path : String) :
    m (Except DecompileError Decompilation) := do
  match ← store.read path with
  | .error fault => return .error (.file fault)
  | .ok bytes =>
    match Container.decode bytes.toList with
    | .error e => return .error (.format e)
    | .ok c =>
      let d := c.decompile
      return .ok { d with unit := { d.unit with file := some path } }

def writeSource (store : FileStore m) (f : SourceFile) : m (Except FileFault Unit) := do
  match ← store.createDirs (Path.parent f.path) with
  | .error fault => return .error fault
  | .ok _ => store.writeText f.path f.text

def writeSources (store : FileStore m) : List SourceFile → m (Except DecompileError Unit)
  | [] => return .ok ()
  | f :: fs => do
    match ← store.writeSource f with
    | .error fault => return .error (.file fault)
    | .ok _ => writeSources store fs

def project (store : FileStore m) (u : SourceUnit) (indent dir : String) :
    m (Except DecompileError (List String)) := do
  let files := u.files indent dir
  match ← store.writeSources files with
  | .error e => return .error e
  | .ok _ => return .ok (files.map (·.path))

end FileStore

end Lss
