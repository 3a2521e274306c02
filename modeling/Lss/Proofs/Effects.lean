import Lss.Lifting.Structure
import Lss.Proofs.Shape

/-!
# Calls and stores

The calls and stores of a program text in the order of evaluation, and those of code in the order of
its instructions. A call of an operation on arrays counts as the call of a method, since that is how
it is written; so does a call of a method of `this`.
-/
namespace Lss

/-- What is called or stored to. A name is left open where an operand names nothing. -/
inductive Target where
  | variable (name : Option String)
  | member (name : Option String)
  | dynamicMember
  | game (space name : Option String)
  | dynamicGame (space : Option String)
  | element
  | other
deriving DecidableEq, Repr

inductive Effect where
  | call (target : Target) (arguments : Nat)
  | construct (arguments : Nat)
  | store (target : Target)
deriving DecidableEq, Repr

def Effect.isStore : Effect → Bool
  | .store _ => true
  | _ => false

/-! Trees. -/

namespace Expr

def text? : Expr → Option String
  | .variable t => some t.text
  | _ => none

/-- What a call of an expression calls, or what an assignment to it stores to. -/
def target : Expr → Target
  | .variable t => .variable (some t.text)
  | .binary left op right =>
    match op.kind with
    | .access .member => .member right.text?
    | .access .dynamicMember => .dynamicMember
    | .access .scope => .game left.text? right.text?
    | .access .dynamicScope => .dynamicGame left.text?
    | _ => .other
  | .index _ _ _ => .element
  | _ => .other

mutual

def effects : Expr → List Effect
  | .literal _ | .variable _ | .pending _ | .construct _ none _ => []
  | .grouping e => e.effects
  | .unary _ e _ => e.effects
  | .binary left _ right => left.effects ++ right.effects
  | .index a i _ => a.effects ++ i.effects
  | .array elements _ => allEffects elements
  | .call f arguments _ =>
    f.effects ++ allEffects arguments ++ [Effect.call f.target arguments.length]
  | .construct _ (some arguments) _ => allEffects arguments ++ [Effect.construct arguments.length]

def allEffects : List Expr → List Effect
  | [] => []
  | e :: es => e.effects ++ allEffects es

end

variable {e left right : Expr} {es : List Expr}

@[simp] theorem allEffects_nil : allEffects [] = [] := rfl

@[simp] theorem allEffects_cons : allEffects (e :: es) = e.effects ++ allEffects es := rfl

@[simp] theorem effects_groupedIf (c : Bool) : (e.groupedIf c).effects = e.effects := by
  cases c <;> rfl

@[simp] theorem effects_receiver : e.receiver.effects = e.effects := effects_groupedIf _

@[simp] theorem effects_primary : e.primary.effects = e.effects := effects_groupedIf _

@[simp] theorem effects_operation (op : TokenKind) :
    (operation left op right).effects = left.effects ++ right.effects := rfl

@[simp] theorem effects_ofBinary (op : TokenKind) :
    (left.ofBinary op right).effects = left.effects ++ right.effects := by
  unfold ofBinary
  split <;> simp

@[simp] theorem effects_ofUnary (op : TokenKind) : (e.ofUnary op).effects = e.effects :=
  effects_groupedIf _

@[simp] theorem effects_ofAccess (op : TokenKind) :
    (left.ofAccess op right).effects = left.effects ++ right.effects := by
  unfold ofAccess
  split <;> simp

@[simp] theorem effects_name (n : String) : (name n).effects = [] := rfl

@[simp] theorem effects_this : this.effects = [] := rfl

@[simp] theorem effects_ofMember (m : String) : (e.ofMember m).effects = e.effects := by
  simp [ofMember]

@[simp] theorem effects_ofIndex : (left.ofIndex right).effects = left.effects ++ right.effects := by
  show left.receiver.effects ++ right.effects = _
  rw [effects_receiver]

@[simp] theorem effects_ofCall :
    (e.ofCall es).effects = e.effects ++ allEffects es ++ [Effect.call e.target es.length] := rfl

@[simp] theorem target_name (n : String) : (name n).target = .variable (some n) := rfl

@[simp] theorem target_ofMember (m : String) : (e.ofMember m).target = .member (some m) := rfl

@[simp] theorem target_ofDynamicMember :
    (left.ofAccess (.access .dynamicMember) right).target = .dynamicMember := rfl

@[simp] theorem target_ofGame (space n : String) :
    ((name space).ofAccess (.access .scope) (name n)).target = .game (some space) (some n) := rfl

@[simp] theorem target_ofDynamicGame (space : String) :
    ((name space).ofAccess (.access .dynamicScope) right).target = .dynamicGame (some space) := rfl

@[simp] theorem target_ofIndex : (left.ofIndex right).target = .element := rfl

mutual

/-- A store is a statement of its own. -/
theorem filter_isStore_effects : (e : Expr) → e.effects.filter Effect.isStore = []
  | .literal _ | .variable _ | .pending _ | .construct _ none _ => rfl
  | .grouping e | .unary _ e _ => filter_isStore_effects e
  | .binary left _ right | .index left right _ => by
    simp [effects, filter_isStore_effects left, filter_isStore_effects right]
  | .array es _ => filter_isStore_allEffects es
  | .call f es _ => by
    simp [effects, filter_isStore_effects f, filter_isStore_allEffects es, Effect.isStore]
  | .construct _ (some es) _ => by
    simp [effects, filter_isStore_allEffects es, Effect.isStore]

theorem filter_isStore_allEffects : (es : List Expr) → (allEffects es).filter Effect.isStore = []
  | [] => rfl
  | e :: es => by simp [filter_isStore_effects e, filter_isStore_allEffects es]

end

end Expr

namespace Stmt

mutual

def effects : Stmt → List Effect
  | .block ⟨body, _⟩ => allEffects body
  | .expr e => e.effects
  | .return_ none _ => []
  | .return_ (some e) _ => e.effects
  | .if_ none body none _ => body.effects
  | .if_ none body (some arm) _ => body.effects ++ arm.effects
  | .if_ (some c) body none _ => c.effects ++ body.effects
  | .if_ (some c) body (some arm) _ => c.effects ++ body.effects ++ arm.effects
  | .while_ c body | .foreach _ c body => c.effects ++ body.effects
  | .doWhile body c => body.effects ++ c.effects
  | .assign target value => target.effects ++ value.effects ++ [Effect.store target.target]
  | .var name none => [.store (.variable (some name.text))]
  | .var name (some e) => e.effects ++ [Effect.store (.variable (some name.text))]
  | .classDecl _ | .property _ | .subroutine _ | .global _ => []

def allEffects : List Stmt → List Effect
  | [] => []
  | s :: ss => s.effects ++ allEffects ss

end

variable {s : Stmt} {ss ts : List Stmt}

@[simp] theorem allEffects_nil : allEffects [] = [] := rfl

@[simp] theorem allEffects_cons : allEffects (s :: ss) = s.effects ++ allEffects ss := rfl

@[simp] theorem allEffects_append : allEffects (ss ++ ts) = allEffects ss ++ allEffects ts := by
  induction ss with
  | nil => rfl
  | cons s ss ih => simp [ih]

@[simp] theorem effects_ofReturn (e : Expr) : (ofReturn e).effects = e.effects := by
  unfold ofReturn
  split
  · split <;> rfl
  · rfl

@[simp] theorem effects_ofList (ss : List Stmt) : (ofList ss).effects = allEffects ss := rfl

@[simp] theorem effects_elseArm (arm : List Stmt) :
    (Body.elseArm arm).effects = allEffects arm := by
  unfold Body.elseArm
  split <;> simp

end Stmt

/-! Code. -/

namespace Library

def symbol? (l : Library) (s : SymbolId) : Option String := l.container.symbols.get? s.index

def slotName? (l : Library) (names : SlotNames) (s : Slot) : Option String :=
  if s.isGlobal then l.container.globals.get? s.index else some (names.token s.index.toNat).text

def effect? (l : Library) (names : SlotNames) : Instruction → Option Effect
  | .callFunction f argc => some (.call (.variable l.functionAt[f.toNat]?) argc.toNat)
  | .callGameFunction s n argc => some (.call (.game (l.symbol? s) (l.symbol? n)) argc.toNat)
  | .callDynamicGameFunction s argc => some (.call (.dynamicGame (l.symbol? s)) argc.toNat)
  | .callMethod m argc | .callThisMethod m argc => some (.call (.member (l.symbol? m)) argc.toNat)
  | .callDynamicMethod argc => some (.call .dynamicMember argc.toNat)
  | .array op => some (.call (.member (some op.name)) op.arity)
  | .callIndirect argc => some (.construct argc.toNat)
  | .setVariable s => some (.store (.variable (l.slotName? names s)))
  | .setMember m | .setThisMember m => some (.store (.member (l.symbol? m)))
  | .setDynamicMember => some (.store .dynamicMember)
  | .setGameVariable s n => some (.store (.game (l.symbol? s) (l.symbol? n)))
  | .setElement => some (.store .element)
  | _ => none

def effects (l : Library) (names : SlotNames) (code : Code) : List Effect :=
  code.filterMap (l.effect? names)

variable {l : Library} {names : SlotNames} {i : Instruction} {a b : Code}

@[simp] theorem effect?_callFunction (f : UInt32) (argc : UInt8) :
    l.effect? names (.callFunction f argc) =
      some (.call (.variable l.functionAt[f.toNat]?) argc.toNat) := rfl

@[simp] theorem effect?_callGameFunction (s n : SymbolId) (argc : UInt8) :
    l.effect? names (.callGameFunction s n argc) =
      some (.call (.game (l.symbol? s) (l.symbol? n)) argc.toNat) := rfl

@[simp] theorem effect?_callDynamicGameFunction (s : SymbolId) (argc : UInt8) :
    l.effect? names (.callDynamicGameFunction s argc) =
      some (.call (.dynamicGame (l.symbol? s)) argc.toNat) := rfl

@[simp] theorem effect?_callMethod (m : SymbolId) (argc : UInt8) :
    l.effect? names (.callMethod m argc) = some (.call (.member (l.symbol? m)) argc.toNat) := rfl

@[simp] theorem effect?_callThisMethod (m : SymbolId) (argc : UInt8) :
    l.effect? names (.callThisMethod m argc) =
      some (.call (.member (l.symbol? m)) argc.toNat) := rfl

@[simp] theorem effect?_callDynamicMethod (argc : UInt8) :
    l.effect? names (.callDynamicMethod argc) = some (.call .dynamicMember argc.toNat) := rfl

@[simp] theorem effect?_array (op : ArrayOp) :
    l.effect? names (.array op) = some (.call (.member (some op.name)) op.arity) := rfl

@[simp] theorem effect?_setVariable (s : Slot) :
    l.effect? names (.setVariable s) = some (.store (.variable (l.slotName? names s))) := rfl

@[simp] theorem effect?_setMember (m : SymbolId) :
    l.effect? names (.setMember m) = some (.store (.member (l.symbol? m))) := rfl

@[simp] theorem effect?_setThisMember (m : SymbolId) :
    l.effect? names (.setThisMember m) = some (.store (.member (l.symbol? m))) := rfl

@[simp] theorem effect?_setDynamicMember :
    l.effect? names .setDynamicMember = some (.store .dynamicMember) := rfl

@[simp] theorem effect?_setGameVariable (s n : SymbolId) :
    l.effect? names (.setGameVariable s n) =
      some (.store (.game (l.symbol? s) (l.symbol? n))) := rfl

@[simp] theorem effect?_setElement : l.effect? names .setElement = some (.store .element) := rfl

@[simp] theorem effect?_return : l.effect? names .return_ = none := rfl

@[simp] theorem effects_nil : l.effects names [] = [] := rfl

@[simp] theorem effects_append :
    l.effects names (a ++ b) = l.effects names a ++ l.effects names b :=
  List.filterMap_append

theorem effects_cons :
    l.effects names (i :: a) = (l.effect? names i).toList ++ l.effects names a := by
  unfold effects
  cases h : l.effect? names i <;> simp [h]

@[simp] theorem effects_branch (kind : BranchKind) (d : Int16) :
    l.effects names (.branch kind d :: a) = l.effects names a := rfl

end Library

end Lss
