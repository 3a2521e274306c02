import Lss.Container.Basic
import Lss.Lowering.Fault
import Lss.Tree.Basic

/-!
Members of classes, inherited ones included, and the order in which classes are compiled: a base
always before the classes built on it.
-/
namespace Lss

structure ClassLayout where
  name : String := ""
  base : Option String := none
  /-- Inherited ones first. -/
  properties : List String := []
  /-- Parameters of each method. -/
  methods : Std.TreeMap String UInt8 := {}

namespace ClassLayout

/-- The layout of a class that a container holds. Members whose names are not in the symbol table
are passed over. -/
def ofEntry (k : ClassEntry) (symbols : NameTable) : ClassLayout where
  name := k.name
  properties := k.properties.filterMap fun s => symbols.get? s.index
  methods := k.methods.foldl
    (fun ms m =>
      match symbols.get? m.symbol.index with
      | some name => ms.insert name m.parameterCount
      | none => ms) {}

def derive (decl : ClassDecl) (base : Option ClassLayout) : ClassLayout :=
  let base := base.getD {}
  { name := decl.name.text
    base := decl.base.map (·.text)
    properties := decl.properties.foldl
      (fun ps p => if ps.contains p.text then ps else ps ++ [p.text]) base.properties
    methods := decl.methods.foldl
      (fun ms m => ms.insert m.name.text (UInt8.ofNat (min m.parameters.length 255))) base.methods }

def arity? (l : ClassLayout) (method : String) : Option UInt8 := l.methods[method]?

def constructorArity? (l : ClassLayout) : Option UInt8 := l.arity? l.name

/-- Layouts of the classes of a container, then of declarations in an order that has bases first;
latest first. A base is the latest class of its name. -/
def all (c : Container) (decls : List ClassDecl) : List ClassLayout :=
  let add (ls : List ClassLayout) (decl : ClassDecl) : List ClassLayout :=
    derive decl (decl.base.bind fun base => ls.find? (·.name == base.text)) :: ls
  decls.foldl add (c.classes.map (ofEntry · c.symbols)).reverse

end ClassLayout

namespace ClassOrder

/-- Classes that are not settled, those in order, last one first, and what is wrong with others. -/
structure Progress where
  waiting : List Nat
  ordered : List Nat := []
  broken : List Nat := []
  errors : List CompileError := []

inductive Ending where
  /-- At a class whose bases are all known. -/
  | sound
  /-- At a base that does not exist or leads back to its class; `none` if reported before. -/
  | broken (error : Option CompileError)

/-- Follows the bases of class `i`. `path` holds the classes on the way, last one first, and
`waiting` those that are neither settled nor on the way. -/
def walk (classes : Array ClassDecl) (byName : Std.TreeMap String Nat) (existing : Container)
    (done : Progress) (path waiting : List Nat) (i : Nat) : List Nat × List Nat × Ending :=
  if h : i ∈ waiting then
    have _shorter : (waiting.erase i).length < waiting.length := by
      have := List.length_pos_of_mem h
      rw [List.length_erase_of_mem h]
      omega
    match classes[i]?.bind (·.base) with
    | none => (i :: path, waiting.erase i, .sound)
    | some base =>
      match byName[base.text]? with
      | some j => walk classes byName existing done (i :: path) (waiting.erase i) j
      | none =>
        if (existing.findClass? base.text).isSome then (i :: path, waiting.erase i, .sound)
        else
          (i :: path, waiting.erase i, .broken (some (.undefinedClass base.text base.span)))
  else if done.ordered.contains i then (path, waiting, .sound)
  else if done.broken.contains i then (path, waiting, .broken none)
  else
    (path, waiting, .broken (classes[i]?.map fun c => .inheritanceCycle c.name.text c.name.span))
termination_by waiting.length

def visit (classes : Array ClassDecl) (byName : Std.TreeMap String Nat) (existing : Container)
    (done : Progress) (i : Nat) : Progress :=
  match walk classes byName existing done [] done.waiting i with
  | (path, waiting, .sound) => { done with waiting, ordered := path.reverse ++ done.ordered }
  | (path, waiting, .broken error) =>
    { done with
      waiting
      broken := path ++ done.broken
      errors := error.toList ++ done.errors }

end ClassOrder

/-- The places of classes in an order that has every base before the classes built on it, and one
error for each broken way along the bases. Classes on a broken way are left out. -/
def orderClasses (classes : List ClassDecl) (existing : Container) :
    List Nat × List CompileError :=
  let indices := List.range classes.length
  let byName := (classes.zip indices).foldl (fun m (c, i) => m.insert c.name.text i) {}
  let done :=
    indices.foldl (ClassOrder.visit classes.toArray byName existing) { waiting := indices }
  (done.ordered.reverse, done.errors.reverse)

end Lss
