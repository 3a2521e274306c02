import Lss.Command.Run

/-!
The command on the files of the system.
-/
namespace Lss.Main

def fault : IO.Error → FileFault
  | .noFileOrDirectory _ _ _ => .noEntry
  | .alreadyExists _ _ _ => .alreadyExists
  | .inappropriateType _ _ _ => .isDirectory
  | .invalidArgument _ _ _ => .nulInName
  | _ => .notDirectory

def attempt {α : Type} (act : IO α) : IO (Except FileFault α) := do
  try
    return .ok (← act)
  catch e => return .error (fault e)

def store : FileStore IO where
  read path := attempt (IO.FS.readBinFile path)
  write path bytes := attempt (IO.FS.writeBinFile path bytes)
  createDirs path := attempt (IO.FS.createDirAll path)
  isThere path := do
    match ← attempt (IO.FS.readBinFile path) with
    | .error .noEntry => return false
    | .error .notDirectory => return false
    | _ => return true
  surroundings := do
    let here := Path.parts (← IO.currentDir).toString
    return (List.range (here.length + 1)).reverse.map fun n => Path.ofParts true (here.take n)

end Lss.Main

def main (arguments : List String) : IO UInt32 := do
  let o ← Lss.Command.run Lss.Main.store arguments
  IO.print o.stdout
  IO.eprint o.stderr
  return UInt32.ofNat o.exit
