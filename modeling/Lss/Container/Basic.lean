import Lss.Code.Instruction
import Lss.Container.NameTable

/-!
Containers: three name tables, functions and classes. All bodies together form one code segment,
the functions' in table order and then the methods' class by class; static calls give the place
of a body in it.
-/
namespace Lss

structure FunctionEntry where
  name : String
  parameterCount : UInt8
  code : Code
deriving DecidableEq, Repr

structure MethodEntry where
  symbol : SymbolId
  code : Code
deriving DecidableEq, Repr

structure ClassEntry where
  name : String
  properties : List SymbolId := []
  methods : List MethodEntry := []
deriving DecidableEq, Repr

structure Container where
  major : UInt16 := 4
  minor : UInt16 := 1
  strings : NameTable := .empty
  symbols : NameTable := .empty
  globals : NameTable := .empty
  functions : List FunctionEntry := []
  classes : List ClassEntry := []

namespace Instruction

def isPrologue : Instruction → Bool
  | .checkArgumentCount _ | .allocateLocals _ => true
  | _ => false

end Instruction

/-- Parameters of a method, which only its prologue tells. -/
def MethodEntry.parameterCount (m : MethodEntry) : UInt8 :=
  let checked : Instruction → Option UInt8
    | .checkArgumentCount n => some n
    | _ => none
  ((m.code.takeWhile Instruction.isPrologue).findSome? checked).getD 0

namespace ClassEntry

def method? (c : ClassEntry) (symbol : SymbolId) : Option MethodEntry :=
  c.methods.find? (·.symbol == symbol)

def hasProperty (c : ClassEntry) (symbol : SymbolId) : Bool := c.properties.contains symbol

end ClassEntry

namespace Container

def findFunction? (c : Container) (name : String) : Option Nat :=
  c.functions.findIdx? (·.name == name)

def findClass? (c : Container) (name : String) : Option Nat :=
  c.classes.findIdx? (·.name == name)

def symbol (c : Container) (s : SymbolId) : Except FormatError String :=
  c.symbols.resolve .symbols s.index

def table (c : Container) : TableId → NameTable
  | .strings => c.strings
  | .symbols => c.symbols
  | .globals => c.globals

def setTable (c : Container) (t : NameTable) : TableId → Container
  | .strings => { c with strings := t }
  | .symbols => { c with symbols := t }
  | .globals => { c with globals := t }

/-- Where each of a row of bodies starts when the first is at `offset`, and where the last ends. -/
def starts (offset : Nat) (bodies : List Code) : List Nat × Nat :=
  let (found, stop) :=
    bodies.foldl (fun (acc, at_) code => (at_ :: acc, at_ + code.size)) ([], offset)
  (found.reverse, stop)

def wrap (offset : Nat) : Nat := offset % 0x100000000

def functionOffsets (c : Container) : List Nat :=
  (starts 0 (c.functions.map (·.code))).1.map wrap

def functionsSize (c : Container) : Nat := (starts 0 (c.functions.map (·.code))).2

def methodOffsets (c : Container) : List (List Nat) :=
  let place (acc : List (List Nat) × Nat) (k : ClassEntry) : List (List Nat) × Nat :=
    let (found, stop) := starts acc.2 (k.methods.map (·.code))
    (found.map wrap :: acc.1, stop)
  (c.classes.foldl place ([], c.functionsSize)).1.reverse

/-- The function whose body starts at an offset; of several, the first. -/
def functionAt? (c : Container) (offset : UInt32) : Option Nat :=
  c.functionOffsets.findIdx? (· == offset.toNat)

/-- Same tables, functions and classes, where floats in code count as numbers. -/
def agrees (a b : Container) : Bool :=
  let sameMethod (m n : MethodEntry) : Bool := m.symbol == n.symbol && m.code.agrees n.code
  let sameClass (k l : ClassEntry) : Bool :=
    k.name == l.name && k.properties == l.properties && k.methods.length == l.methods.length &&
      (k.methods.zip l.methods).all fun (m, n) => sameMethod m n
  let sameFunction (f g : FunctionEntry) : Bool :=
    f.name == g.name && f.parameterCount == g.parameterCount && f.code.agrees g.code
  a.major == b.major && a.minor == b.minor && a.strings == b.strings && a.symbols == b.symbols &&
    a.globals == b.globals && a.functions.length == b.functions.length &&
    (a.functions.zip b.functions).all (fun (f, g) => sameFunction f g) &&
    a.classes.length == b.classes.length &&
    (a.classes.zip b.classes).all fun (k, l) => sameClass k l

end Container

end Lss
