import Std.Data.TreeMap
import Lss.Tree.Basic

/-!
Names of a subroutine. Frames nest lexically and are never thrown away, so one can be gone back
to by its number; slots are handed out once each, so their count only grows.
-/
namespace Lss

inductive Variable where
  | slot (index : UInt16)
  /-- An element of a loop over a collection: to read it is to read `collection[index]`, with the
  names of the collection looked up from `frame`. -/
  | element (collection : Expr) (index : UInt16) (frame : Nat)
deriving DecidableEq, Repr

structure Frame where
  parent : Option Nat
  bindings : Std.TreeMap String Variable := {}

structure Scopes where
  frames : Array Frame := #[]
  current : Option Nat := none
  slotCount : Nat := 0
  /-- How many hidden names were made. -/
  hidden : Nat := 0

namespace Scopes

def enter (s : Scopes) : Scopes :=
  let number := s.frames.size
  { s with frames := s.frames.push { parent := s.current }, current := some number }

def start : Scopes := enter {}

def frame? (s : Scopes) : Option Frame := s.current.bind (s.frames[·]?)

def enclosing (s : Scopes) : Option Nat := s.frame?.bind (·.parent)

/-- Goes back to the frame around the current one. -/
def exit (s : Scopes) : Scopes := { s with current := s.enclosing }

def goTo (s : Scopes) (frame : Option Nat) : Scopes := { s with current := frame }

def isBound (s : Scopes) (name : String) : Bool :=
  s.frame?.any (·.bindings.contains name)

def insert (s : Scopes) (name : String) (v : Variable) : Scopes :=
  match s.current with
  | none => s
  | some i =>
    { s with frames := s.frames.modify i fun f => { f with bindings := f.bindings.insert name v } }

/-- The number of a new slot. Numbers past 16 bits are cut off; the count tells that they were. -/
def nextSlot (s : Scopes) : UInt16 := UInt16.ofNat (min s.slotCount 65535)

/-- Gives a name a new slot. Names are declared once in a frame, and may hide those around it. -/
def declare (s : Scopes) (name : String) : Option (UInt16 × Scopes) :=
  if s.current.isNone || s.isBound name then none
  else
    let slot := s.nextSlot
    some (slot, { s with slotCount := s.slotCount + 1 }.insert name (.slot slot))

def bind (s : Scopes) (name : String) (v : Variable) : Option Scopes :=
  if s.current.isNone || s.isBound name then none else some (s.insert name v)

/-- A new slot under a name that no source text can spell. -/
def declareHidden (s : Scopes) (purpose : String) : UInt16 × Scopes :=
  let number := s.hidden + 1
  let slot := s.nextSlot
  (slot, { s with slotCount := s.slotCount + 1, hidden := number }.insert
    ("$" ++ purpose ++ toString number) (.slot slot))

def declareHiddenMany (s : Scopes) (purpose : String) : Nat → Option UInt16 × Scopes
  | 0 => (none, s)
  | n + 1 =>
    let (slot, s) := n.repeat (fun r => r.2.declareHidden purpose) (s.declareHidden purpose)
    (some slot, s)

def resolveFrom (s : Scopes) (name : String) (i : Nat) : Option Variable :=
  match s.frames[i]? with
  | none => none
  | some f =>
    match f.bindings[name]? with
    | some v => some v
    | none =>
      match f.parent with
      | some p => if p < i then resolveFrom s name p else none
      | none => none
termination_by i

def resolve (s : Scopes) (name : String) : Option Variable :=
  s.current.bind (s.resolveFrom name)

end Scopes

end Lss
