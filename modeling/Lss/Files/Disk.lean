import Std.Data.TreeMap
import Std.Data.TreeSet
import Lss.Files.Path
import Lss.Files.Store

/-!
Files in memory. Files and directories are kept under their full paths from the root, which is the
empty text; every other one starts with a slash.
-/
namespace Lss

structure Disk where
  files : Std.TreeMap String ByteArray := {}
  dirs : Std.TreeSet String := .ofList [""]

/-- What a path leads to. A name that is not there, or too long to be anywhere, has its place in a
directory that is. -/
inductive Entry where
  | file (full : String)
  | dir (full : String)
  | absent (full : String)
  | unnamable

namespace Disk

/-- The longest name, and the longest path, in bytes. -/
def maxName : Nat := 255

def maxPath : Nat := 4095

/-- The directory around another one; the root is around itself. -/
def above (full : String) : String :=
  let parts := Path.parts full
  if parts.length ≤ 1 then "" else Path.ofParts true parts.dropLast

def entry (d : Disk) (dir name : String) : Entry :=
  let full := dir ++ "/" ++ name
  if maxName < name.utf8ByteSize then .unnamable
  else if d.dirs.contains full then .dir full
  else if d.files.contains full then .file full
  else .absent full

def walk (d : Disk) (dir : String) : List String → Except FileFault Entry
  | [] => .ok (.dir dir)
  | "." :: steps => walk d dir steps
  | ".." :: steps => walk d (above dir) steps
  | name :: steps =>
    match d.entry dir name, steps with
    | .dir full, _ => walk d full steps
    | e, [] => .ok e
    | .file _, _ => .error .notDirectory
    | .absent _, _ => .error .noEntry
    | .unnamable, _ => .error .nameTooLong

def resolve (d : Disk) (cwd p : String) : Except FileFault Entry :=
  if p.toList.contains '\x00' then .error .nulInName
  else if p == "" then .error .noEntry
  else if maxPath < p.utf8ByteSize then .error .nameTooLong
  else d.walk (if Path.isAbsolute p then "" else cwd) (Path.steps p)

def isDir (d : Disk) (cwd p : String) : Bool :=
  match d.resolve cwd p with
  | .ok (.dir _) => true
  | _ => false

def isThere (d : Disk) (cwd p : String) : Bool :=
  match d.resolve cwd p with
  | .ok (.dir _) => true
  | .ok (.file _) => !Path.endsInSlash p
  | _ => false

def read (d : Disk) (cwd p : String) : Except FileFault ByteArray :=
  match d.resolve cwd p with
  | .error e => .error e
  | .ok (.dir _) => .error .isDirectory
  | .ok (.absent _) => .error .noEntry
  | .ok .unnamable => .error .nameTooLong
  | .ok (.file full) =>
    if Path.endsInSlash p then .error .notDirectory else .ok (d.files.getD full .empty)

/-- A path that ends in a slash can only be a directory's, so no file is written there, whatever the
name before it. -/
def write (d : Disk) (cwd p : String) (bytes : ByteArray) : Except FileFault Disk :=
  match d.resolve cwd p with
  | .error e => .error e
  | .ok e =>
    if Path.endsInSlash p then .error .isDirectory
    else
      match e with
      | .dir _ => .error .isDirectory
      | .unnamable => .error .nameTooLong
      | .absent full | .file full => .ok { d with files := d.files.insert full bytes }

/-- Makes one directory. -/
def createDir (d : Disk) (cwd p : String) : Except FileFault Disk :=
  match d.resolve cwd p with
  | .error e => .error e
  | .ok (.absent full) => .ok { d with dirs := d.dirs.insert full }
  | .ok .unnamable => .error .nameTooLong
  | .ok _ => .error .alreadyExists

/-- Makes the directory with these parts, last one first, and those around it. One that is there
already is as good as made. -/
def createDirs (d : Disk) (cwd : String) (absolute : Bool) :
    List String → Except FileFault Unit × Disk
  | [] => (.ok (), d)
  | part :: up =>
    let p := Path.ofParts absolute (part :: up).reverse
    let make (d : Disk) : Except FileFault Unit × Disk :=
      match d.createDir cwd p with
      | .ok d => (.ok (), d)
      | .error e => (if d.isDir cwd p then .ok () else .error e, d)
    match d.createDir cwd p with
    | .error .noEntry =>
      match createDirs d cwd absolute up with
      | (.error e, d) => (.error e, d)
      | (.ok _, d) => make d
    | _ => make d

def surroundings (cwd : String) : List String :=
  let rec outward (up : List String) : List String :=
    match up with
    | [] => ["/"]
    | part :: up => Path.ofParts true (part :: up).reverse :: outward up
  outward (Path.parts cwd).reverse

def store (cwd : String) : FileStore (StateM Disk) where
  read p := return (← get).read cwd p
  write p bytes := do
    match (← get).write cwd p bytes with
    | .ok d => set d; return .ok ()
    | .error e => return .error e
  createDirs p := do
    let (result, d) := (← get).createDirs cwd (Path.isAbsolute p) (Path.parts p).reverse
    set d
    return result
  isThere p := return (← get).isThere cwd p
  surroundings := return surroundings cwd

def place (d : Disk) (p : String) (bytes : ByteArray) : Disk :=
  let parts := Path.parts p
  let around := (List.range parts.length).map fun n => Path.ofParts (n != 0) (parts.take n)
  { files := d.files.insert (Path.ofParts true parts) bytes
    dirs := d.dirs.insertMany around }

def placeDir (d : Disk) (p : String) : Disk :=
  let parts := Path.parts p
  { d with
    dirs := d.dirs.insertMany
      ((List.range (parts.length + 1)).map fun n => Path.ofParts (n != 0) (parts.take n)) }

def below (d : Disk) (dir : String) : List (String × ByteArray) :=
  let lead := dir ++ "/"
  d.files.toList.filterMap fun (full, bytes) =>
    if full.startsWith lead then some ((full.drop lead.length).toString, bytes) else none

end Disk

end Lss
