import Std.Data.TreeMap
import Lss.Container.Fault

/-!
Tables of names. A name's position is how code refers to it, so names are only ever added at the
end; an index beside the list finds the first position of a name.
-/
namespace Lss

structure NameTable where
  entries : Array String := #[]
  index : Std.TreeMap String UInt16 := {}

namespace NameTable

def empty : NameTable := {}

instance : Inhabited NameTable := ⟨empty⟩

def toList (t : NameTable) : List String := t.entries.toList

def size (t : NameTable) : Nat := t.entries.size

/-- Adds a name at the end; one that is there already keeps its first position. -/
def push (t : NameTable) (name : String) : NameTable :=
  let position := UInt16.ofNat t.entries.size
  ⟨t.entries.push name, t.index.insertIfNew name position⟩

/-- The table with exactly these entries, repeated ones included. -/
def ofList (names : List String) : NameTable := names.foldl push empty

def find? (t : NameTable) (name : String) : Option UInt16 := t.index[name]?

def get? (t : NameTable) (i : UInt16) : Option String := t.entries[i.toNat]?

def resolve (t : NameTable) (id : TableId) (i : UInt16) : Except FormatError String :=
  match t.get? i with
  | some name => .ok name
  | none => .error (.indexOutOfRange id i)

def capacity : Nat := 65535

/-- The position of a name, which is added unless it is there. A full table stays as it is. -/
def intern (t : NameTable) (name : String) : Except FormatError UInt16 × NameTable :=
  match t.find? name with
  | some i => (.ok i, t)
  | none =>
    if t.size < capacity then (.ok (UInt16.ofNat t.size), t.push name) else (.error .tableFull, t)

def internAll (t : NameTable) (last : Except FormatError UInt16) :
    List String → Except FormatError UInt16 × NameTable
  | [] => (last, t)
  | name :: names =>
    let (result, t) := t.intern name
    internAll t result names

/-- Tables are compared by their entries. -/
instance : BEq NameTable := ⟨fun a b => a.entries == b.entries⟩

end NameTable

end Lss
