/-!
What programs ask of a place where files are kept, and what can go wrong there, in the system's
words.
-/
namespace Lss

inductive FileFault where
  | noEntry
  | alreadyExists
  | notDirectory
  | isDirectory
  | nameTooLong
  | nulInName
  | invalidUtf8
  | shortWrite
deriving DecidableEq, Repr

def FileFault.message : FileFault → String
  | .noEntry => "No such file or directory (os error 2)"
  | .alreadyExists => "File exists (os error 17)"
  | .notDirectory => "Not a directory (os error 20)"
  | .isDirectory => "Is a directory (os error 21)"
  | .nameTooLong => "File name too long (os error 36)"
  | .nulInName => "file name contained an unexpected NUL byte"
  | .invalidUtf8 => "stream did not contain valid UTF-8"
  | .shortWrite => "failed to write whole buffer"

structure FileStore (m : Type → Type) where
  read : String → m (Except FileFault ByteArray)
  /-- Puts a file in the place of whatever file has its name. -/
  write : String → ByteArray → m (Except FileFault Unit)
  /-- Makes a directory and all those around it that are missing. -/
  createDirs : String → m (Except FileFault Unit)
  isThere : String → m Bool
  /-- The current directory and those around it, innermost first. -/
  surroundings : m (List String)

namespace FileStore

variable {m : Type → Type} [Monad m]

def readText (store : FileStore m) (path : String) : m (Except FileFault String) := do
  match ← store.read path with
  | .error e => return .error e
  | .ok bytes =>
    match String.fromUTF8? bytes with
    | some text => return .ok text
    | none => return .error .invalidUtf8

def writeText (store : FileStore m) (path text : String) : m (Except FileFault Unit) :=
  store.write path text.toUTF8

end FileStore

end Lss
