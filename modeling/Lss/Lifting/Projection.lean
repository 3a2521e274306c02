import Lss.Files.Path
import Lss.Lifting.Unit
import Lss.Tree.Printer

/-!
A unit as a directory of source files: one for the globals, one for each function, and one for each
class, below directories named for its base classes.
-/
namespace Lss

structure SourceFile where
  path : String
  text : String
deriving DecidableEq, Repr

namespace SourceUnit

/-- Names of the base classes, outermost first. No chain is longer than there are classes, so `n`
bounds it even where classes share a name. `acc` holds the bases further in. -/
def ancestorsOnto (u : SourceUnit) (acc : List String) : Nat → Option Token → List String
  | 0, _ => acc
  | _, none => acc
  | n + 1, some name =>
    match u.class? name.text with
    | none => acc
    | some base => ancestorsOnto u (base.name.text :: acc) n base.base

def ancestors (u : SourceUnit) (c : ClassDecl) : List String :=
  u.ancestorsOnto [] u.classes.length c.base

def sourceName (name : String) : String := name ++ ".lss"

def globalsPath (dir : String) : String := Path.join dir (sourceName "globals")

def functionPath (dir : String) (f : Subroutine) : String :=
  Path.join (Path.join dir "functions") (sourceName f.name.text)

def classPath (u : SourceUnit) (dir : String) (c : ClassDecl) : String :=
  Path.join ((u.ancestors c).foldl Path.join (Path.join dir "classes")) (sourceName c.name.text)

/-- The files of a unit below a directory, in the order in which they are written. -/
def files (u : SourceUnit) (indent dir : String) : List SourceFile :=
  let globals :=
    if u.globals.isEmpty then []
    else [⟨globalsPath dir, ({ globals := u.globals } : SourceUnit).text indent⟩]
  let functions := u.functions.map fun f =>
    ⟨functionPath dir f, ({ functions := [f] } : SourceUnit).text indent⟩
  let classes := u.classes.map fun c =>
    ⟨u.classPath dir c, ({ classes := [c] } : SourceUnit).text indent⟩
  globals ++ functions ++ classes

end SourceUnit

end Lss
