/-!
What instructions refer to: variable slots, and entries of the symbol and string tables.
-/
namespace Lss

/-- A variable: a local of the running subroutine or, with the top bit set, a global. -/
structure Slot where
  val : UInt16
deriving DecidableEq, Repr

namespace Slot

def globalFlag : UInt16 := 0x8000

def ofLocal (index : UInt16) : Slot := ⟨index⟩

def ofGlobal (index : UInt16) : Slot := ⟨index ||| globalFlag⟩

def isGlobal (s : Slot) : Bool := s.val &&& globalFlag != 0

/-- The index without the flag. -/
def index (s : Slot) : UInt16 := s.val &&& 0x7FFF

def text (s : Slot) : String :=
  (if s.isGlobal then "global[" else "local[") ++ toString s.index.toNat ++ "]"

end Slot

structure SymbolId where
  index : UInt16
deriving DecidableEq, Repr

def SymbolId.text (s : SymbolId) : String := "sym#" ++ toString s.index.toNat

structure StringId where
  index : UInt16
deriving DecidableEq, Repr

def StringId.text (s : StringId) : String := "str#" ++ toString s.index.toNat

end Lss
