import Std.Data.TreeSet
import Lss.Container.Basic

/-!
Base classes. A container keeps classes with all that they inherited; the base of a class is taken
to be the one with the most members, all of which the class has too.
-/
namespace Lss

structure Members where
  properties : Std.TreeSet UInt16
  methods : Std.TreeSet UInt16

namespace Members

def ofEntry (k : ClassEntry) : Members where
  properties := .ofList (k.properties.map (·.index))
  methods := .ofList (k.methods.map (·.symbol.index))

def count (m : Members) : Nat := m.properties.size + m.methods.size

def isSubset (m n : Members) : Bool :=
  m.properties.all n.properties.contains && m.methods.all n.methods.contains

/-- May class `b` be the base of class `a`? Of two with the same members, the earlier one. -/
def isBase (a : Nat) (own : Members) (b : Nat) (other : Members) : Bool :=
  b != a && other.count != 0 && other.isSubset own && !(other.count == own.count && a < b)

/-- The base of class `a`: of those with the most members, the first. -/
def base? (all : List (Members × Nat)) (a : Nat) (own : Members) : Option Nat :=
  let better (best : Option (Nat × Nat)) (m : Members × Nat) : Option (Nat × Nat) :=
    if isBase a own m.2 m.1 && best.all (fun x => x.2 < m.1.count) then some (m.2, m.1.count)
    else best
  (all.foldl better none).map (·.1)

end Members

/-- A class as it would be declared: its base, and what it adds or replaces. -/
structure ClassShape where
  base : Option Nat
  properties : List SymbolId
  /-- Places in the class's own list of methods. -/
  methods : List Nat
deriving DecidableEq, Repr

namespace ClassShape

/-- What a class has beside its base. Methods with other code than the base's are its own. -/
def ofEntry (k : ClassEntry) (base : Option (Nat × ClassEntry)) : ClassShape :=
  match base with
  | none => ⟨none, k.properties, List.range k.methods.length⟩
  | some (i, b) =>
    let isOwn (m : MethodEntry) : Bool :=
      match b.method? m.symbol with
      | some inherited => !inherited.code.agrees m.code
      | none => true
    ⟨some i, k.properties.filter (!b.hasProperty ·),
      ((k.methods.zip (List.range k.methods.length)).filter (isOwn ·.1)).map (·.2)⟩

end ClassShape

def Container.shapes (c : Container) : List ClassShape :=
  let indices := List.range c.classes.length
  let members := (c.classes.map Members.ofEntry).zip indices
  (c.classes.zip members).map fun (k, own, a) =>
    .ofEntry k ((Members.base? members a own).bind fun i => c.classes[i]?.map (i, ·))

end Lss
