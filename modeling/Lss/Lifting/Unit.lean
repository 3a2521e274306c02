import Lss.Lifting.Hierarchy
import Lss.Lifting.Structure
import Lss.Lifting.Tidy

/-!
Containers as source units. A subroutine that cannot be read back is left out and reported.
-/
namespace Lss

structure DecompileFailure where
  owner : Option String
  subroutine : String
  error : DecompileError
deriving DecidableEq, Repr

structure Decompilation where
  unit : SourceUnit
  failures : List DecompileFailure

def Decompilation.isComplete (d : Decompilation) : Bool := d.failures.isEmpty

namespace Library

def subroutine (l : Library) (name : String) (names : SlotNames) (code : Code) :
    Except DecompileError Subroutine := do
  let body ← Body.ofCode l names (code.dropWhile Instruction.isPrologue)
  return ⟨.identifier name, names.parameters, ⟨tidy (← body.statements), .synthetic⟩⟩

def functionSubroutine (l : Library) (f : FunctionEntry) : Except DecompileError Subroutine :=
  l.subroutine f.name { parameterCount := f.parameterCount } f.code

def methodSubroutine (l : Library) (m : MethodEntry) : Except DecompileError Subroutine :=
  match l.container.symbol m.symbol with
  | .error e => .error (.format e)
  | .ok name => l.subroutine name { isMethod := true, parameterCount := m.parameterCount } m.code

def decompileFunction (l : Library) (i : Nat) : Except DecompileError Subroutine :=
  match l.container.functions[i]? with
  | none => .error (.missingEntry .function i)
  | some f => l.functionSubroutine f

def decompileMethod (l : Library) (i j : Nat) : Except DecompileError Subroutine :=
  match l.container.classes[i]? with
  | none => .error (.missingEntry .class_ i)
  | some k =>
    match k.methods[j]? with
    | none => .error (.missingEntry .method j)
    | some m => l.methodSubroutine m

structure Progress (α : Type) where
  found : List α := []
  failures : List DecompileFailure := []

namespace Progress

variable {α : Type}

def add (p : Progress α) (owner : Option String) (subroutine : String) :
    Except DecompileError α → Progress α
  | .ok a => { p with found := a :: p.found }
  | .error e => { p with failures := ⟨owner, subroutine, e⟩ :: p.failures }

end Progress

def addFunction (l : Library) (p : Progress Subroutine) (f : FunctionEntry) :
    Progress Subroutine :=
  p.add none f.name (l.functionSubroutine f)

def addProperty (l : Library) (owner : String) (p : Progress Token) (s : SymbolId) :
    Progress Token :=
  p.add (some owner) ("property #" ++ toString s.index.toNat)
    (match l.container.symbol s with
    | .ok name => .ok (.identifier name)
    | .error e => .error (.format e))

def addMethod (l : Library) (owner : String) (p : Progress Subroutine) (m : MethodEntry × Nat) :
    Progress Subroutine :=
  let name :=
    match l.container.symbol m.1.symbol with
    | .ok name => name
    | .error _ => "method #" ++ toString m.2
  p.add (some owner) name (l.methodSubroutine m.1)

def addClass (l : Library) (p : Progress ClassDecl) (k : ClassEntry × ClassShape) :
    Progress ClassDecl :=
  let (entry, shape) := k
  let methods := entry.methods.toArray
  let properties := shape.properties.foldl (l.addProperty entry.name) { failures := p.failures }
  let own := (shape.methods.filterMap fun i => methods[i]?.map (·, i)).foldl
    (l.addMethod entry.name) { failures := properties.failures }
  let base := shape.base.bind fun i => l.container.classes[i]?.map fun b => Token.identifier b.name
  { found :=
      ⟨.identifier entry.name, base, properties.found.reverse, own.found.reverse⟩ :: p.found
    failures := own.failures }

end Library

def Container.decompile (c : Container) : Decompilation :=
  let l := Library.ofContainer c
  let functions := c.functions.foldl l.addFunction {}
  let classes := (c.classes.zip c.shapes).foldl l.addClass { failures := functions.failures }
  { unit :=
      { globals := c.globals.toList.map .identifier
        functions := functions.found.reverse
        classes := classes.found.reverse }
    failures := classes.failures.reverse }

end Lss
