import Std.Data.TreeSet
import Lss.Tree.Traverse

/-!
Bodies as a person would have written them. Loops over placeholder locals that step through a
collection become `foreach` again, the `return` at the very end goes, first assignments become
declarations, and placeholders get names.
-/
namespace Lss

namespace Expr

def placeholder? (e : Expr) : Option String :=
  match e.ungrouped with
  | .variable t =>
    if t.kind = .identifier ∧ t.text.toList.head? = some '$' then some t.text else none
  | _ => none

def isPlaceholder (name : String) (e : Expr) : Bool := e.placeholder? == some name

def isInteger (text : String) (e : Expr) : Bool :=
  match e.ungrouped with
  | .literal t => t.kind == .integer && t.text == text
  | _ => false

def isNothing : Expr → Bool
  | .literal t => t.kind == .keyword .nothing
  | _ => false

def isLength : Expr → Bool
  | .variable t => t.kind == .property .length
  | _ => false

def operands? (kind : TokenKind) (e : Expr) : Option (Expr × Expr) :=
  match e.ungrouped with
  | .binary l op r => if op.kind = kind then some (l, r) else none
  | _ => none

def isElement (collection : Expr) (index : String) (e : Expr) : Bool :=
  match e.ungrouped with
  | .index items i _ => items.ungrouped == collection && i.isPlaceholder index
  | _ => false

end Expr

namespace Tidy

/-- The start of a loop over a collection: `i = 0; m = collection.length - 1`. -/
structure LoopHead where
  index : String
  last : String
  collection : Expr

def loopHead? (first second : Stmt) : Option LoopHead :=
  match first, second with
  | .assign i zero, .assign m bound => do
    let index ← i.placeholder?
    if !zero.isInteger "0" then none
    let last ← m.placeholder?
    let (length, one) ← bound.operands? (.binary .sub)
    if !one.isInteger "1" then none
    let (collection, property) ← length.operands? (.access .member)
    if property.isLength then some ⟨index, last, collection.ungrouped⟩ else none
  | _, _ => none

def isAdvance (index : String) : Stmt → Bool
  | .assign t v =>
    match v.operands? (.binary .add) with
    | some (counter, one) =>
      t.isPlaceholder index && counter.isPlaceholder index && one.isInteger "1"
    | none => false
  | _ => false

/-- The statements of `while (m >= i) body; i = i + 1`, the last one left out. -/
def loopBody? (head : LoopHead) : Stmt → Option (List Stmt)
  | .while_ c (.block ⟨body, _⟩) =>
    match c.operands? (.binary .greaterEqual), body.getLast? with
    | some (l, r), some step =>
      if l.isPlaceholder head.last && r.isPlaceholder head.index && isAdvance head.index step then
        some body.dropLast
      else none
    | _, _ => none
  | _ => none

theorem weightAll_loopBody {head : LoopHead} {s : Stmt} {body : List Stmt}
    (h : loopBody? head s = some body) : Stmt.weightAll body < s.weight := by
  unfold loopBody? at h
  split at h
  · next c whole _ =>
    split at h
    · next step _ hlast =>
      split at h
      · cases h
        obtain ⟨body, rfl⟩ := List.getLast?_eq_some_iff.mp hlast
        have := Stmt.weightAll_append body [step]
        rw [List.dropLast_concat]
        simp only [Stmt.weightAll, Stmt.weight] at this ⊢
        omega
      · cases h
    · cases h
  · cases h

/-- The parts of a `foreach` that three statements spell out, if they do. The element is only read,
so it must not be assigned to; and the locals of the loop must not be used for anything else. -/
def foreach? (element : Token) (first second third : Stmt) : Option (Expr × List Stmt) := do
  let head ← loopHead? first second
  let body ← loopBody? head third
  let isElement := Expr.isElement head.collection head.index
  if Stmt.anyAssignsTo isElement body then none
  let read : Expr → Option Expr := fun e => if isElement e then some (.variable element) else none
  let body := Stmt.replaceAll read [] body
  let isUsed (e : Expr) : Bool := e.isPlaceholder head.index || e.isPlaceholder head.last
  if Stmt.anyExpr isUsed body then none else some (head.collection, body)

theorem weightAll_foreach {element : Token} {first second third : Stmt} {c : Expr}
    {body : List Stmt} (h : foreach? element first second third = some (c, body)) :
    Stmt.weightAll body < third.weight := by
  simp only [foreach?, Option.bind_eq_bind, Option.bind_eq_some_iff] at h
  obtain ⟨head, -, whole, hwhole, h⟩ := h
  have hlt := weightAll_loopBody hwhole
  split at h
  · cases h
  · split at h
    · cases h
    · cases h
      have := Stmt.weightAll_replaceAll
        (fun e => if Expr.isElement head.collection head.index e then some (.variable element)
          else none) [] whole
      simp only [Stmt.weightAll] at this
      omega

def itemName (n : Nat) : Token := .identifier ("item" ++ toString n)

mutual

/-- Folds the loops in a list, after `acc` in reverse; outer ones first, so `n` counts them in the
order of the text. -/
def foldLoops (n : Nat) (acc ss : List Stmt) : List Stmt × Nat :=
  match ss with
  | [] => (acc.reverse, n)
  | [a] =>
    let (a, n) := foldInside n a
    ((a :: acc).reverse, n)
  | [a, b] =>
    let (a, n) := foldInside n a
    foldLoops n (a :: acc) [b]
  | a :: b :: c :: rest =>
    match h : foreach? (itemName (n + 1)) a b c with
    | some (collection, body) =>
      have _lt := weightAll_foreach h
      let (body, n') := foldLoops (n + 1) [] body
      foldLoops n' (.foreach (itemName (n + 1)) collection (.ofList body) :: acc) rest
    | none =>
      let (a, n) := foldInside n a
      foldLoops n (a :: acc) (b :: c :: rest)
termination_by Stmt.weightAll ss
decreasing_by all_goals (simp only [Stmt.weightAll] at *; omega)

def foldInside (n : Nat) (s : Stmt) : Stmt × Nat :=
  match s with
  | .block ⟨body, span⟩ =>
    let (body, n) := foldLoops n [] body
    (.block ⟨body, span⟩, n)
  | .if_ c body (some arm) span =>
    let (body, n) := foldInside n body
    let (arm, n) := foldInside n arm
    (.if_ c body (some arm) span, n)
  | .if_ c body none span =>
    let (body, n) := foldInside n body
    (.if_ c body none span, n)
  | .while_ c body =>
    let (body, n) := foldInside n body
    (.while_ c body, n)
  | .doWhile body c =>
    let (body, n) := foldInside n body
    (.doWhile body c, n)
  | .foreach x c body =>
    let (body, n) := foldInside n body
    (.foreach x c body, n)
  | s => (s, n)
termination_by s.weight
decreasing_by all_goals (simp only [Stmt.weight] at *; omega)

end

/-- The body without a `return` at its very end that returns nothing. -/
def dropReturn (body : List Stmt) : List Stmt :=
  match body.getLast? with
  | some (.return_ none _) => body.dropLast
  | _ => body

/-- Locals met so far, and those that are used before any assignment can declare them, latest
first. -/
structure Locals where
  seen : Std.TreeSet String := {}
  hoisted : List String := []

def Locals.meet (l : Locals) (e : Expr) : Locals :=
  match e.placeholder? with
  | some name =>
    if l.seen.contains name then l else ⟨l.seen.insert name, name :: l.hoisted⟩
  | none => l

/-- The local that a statement may declare: one that is new, and not part of its own value. -/
def declared? (l : Locals) : Stmt → Option (String × Option Expr)
  | .assign t v =>
    match t.placeholder? with
    | some name =>
      if l.seen.contains name || v.any (·.isPlaceholder name) then none
      else some (name, if v.isNothing then none else some v)
    | none => none
  | _ => none

/-- Turns the first assignment of each local into a declaration, after `acc` in reverse. -/
def declareOnto (l : Locals) (acc : List Stmt) : List Stmt → List Stmt × Locals
  | [] => (acc.reverse, l)
  | s :: ss =>
    match declared? l s with
    | some (name, init) =>
      let s : Stmt := .var (.identifier name) init
      declareOnto (s.fold Locals.meet { l with seen := l.seen.insert name }) (s :: acc) ss
    | none => declareOnto (s.fold Locals.meet l) (s :: acc) ss

/-- Declares every local: by its first assignment where that stands in the body itself, else at
the top. -/
def declareLocals (body : List Stmt) : List Stmt :=
  let (body, l) := declareOnto {} [] body
  l.hoisted.reverse.map (fun name => .var (.identifier name) none) ++ body

abbrev Renaming := Std.TreeMap String String

def renameOnto (names : Renaming) (acc : List Stmt) : List Stmt → List Stmt × Renaming
  | [] => (acc.reverse, names)
  | .var name init :: ss =>
    if name.text.toList.head? = some '$' then
      let new := "var" ++ toString (names.size + 1)
      renameOnto (names.insert name.text new) (.var { name with text := new } init :: acc) ss
    else renameOnto names (.var name init :: acc) ss
  | s :: ss => renameOnto names (s :: acc) ss

def renamed (names : Renaming) : Expr → Option Expr
  | .variable t => names[t.text]?.map fun new => .variable { t with text := new }
  | _ => none

def renameLocals (body : List Stmt) : List Stmt :=
  let (body, names) := renameOnto {} [] body
  Stmt.replaceAll (renamed names) [] body

end Tidy

def tidy (body : List Stmt) : List Stmt :=
  Tidy.renameLocals (Tidy.declareLocals (Tidy.dropReturn (Tidy.foldLoops 0 [] body).1))

end Lss
