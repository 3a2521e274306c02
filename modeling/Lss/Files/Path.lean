/-!
Paths. A path is a text; empty parts and `.` lead nowhere, and `..` leads up. Still, every step but
the last starts from a directory, so `.` cannot follow the name of a file.
-/
namespace Lss.Path

def isAbsolute (p : String) : Bool := p.toList.head? == some '/'

def endsInSlash (p : String) : Bool := p.toList.getLast? == some '/'

def steps (p : String) : List String :=
  ((p.toList.splitOn '/').map String.ofList).filter (· != "")

def parts (p : String) : List String := (steps p).filter (· != ".")

def ofParts (absolute : Bool) (parts : List String) : String :=
  (if absolute then "/" else "") ++ "/".intercalate parts

/-- A path below another one; an absolute path stands for itself. -/
def join (base p : String) : String :=
  if isAbsolute p then p
  else if base == "" || endsInSlash base then base ++ p
  else base ++ "/" ++ p

/-- The path up to its last part, without the steps there that lead nowhere. -/
def parent (p : String) : String := ofParts (isAbsolute p) (parts p).dropLast

end Lss.Path
