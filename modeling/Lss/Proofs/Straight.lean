import Lss.Proofs.LaidOut

/-!
# Straight code read back

Each operator of compiled code finds the expressions that it takes on top of the stack and leaves
one, the same at every place and whatever stands below. So straight code shows expressions of its
own, and completes no statement. A kind of expressions that is kept by all that reading back builds
is kept by every operator.
-/
namespace Lss

def OperandStack.topped (es : List Expr) (stack : OperandStack) : OperandStack :=
  es.map StackValue.expr ++ stack

inductive Container.Knows (c : Container) : String → Prop
  | symbol {i name} : c.symbols.get? i = some name → c.Knows name
  | global {i name} : c.globals.get? i = some name → c.Knows name
  | function {f} : f ∈ c.functions → c.Knows f.name

namespace Expr

/-- A kind of expressions that is kept by all that reading back builds, with the names of a
container. -/
structure Hereditary (c : Container) (G : Expr → Prop) : Prop where
  literal (t : Token) : G (.literal t)
  this : G .this
  name {text : String} : c.Knows text → G (.name text)
  property (p : Property) : G (.variable (.of (.property p)))
  arrayOp (op : ArrayOp) : G (.name op.name)
  binary {l r : Expr} (op : TokenKind) : G l → G r → G (l.ofBinary op r)
  unary {e : Expr} (op : TokenKind) : G e → G (e.ofUnary op)
  access {l r : Expr} (op : TokenKind) : G l → G r → G (l.ofAccess op r)
  index {a i : Expr} : G a → G i → G (a.ofIndex i)
  call {t : Expr} {es : List Expr} : G t → (∀ e ∈ es, G e) → G (t.ofCall es)
  array {es : List Expr} : (∀ e ∈ es, G e) → G (.array es .synthetic)
  pending (t : Token) : G (.pending t)
  new (t : Token) : G (.construct t none .synthetic)
  construct {es : List Expr} (t : Token) : (∀ e ∈ es, G e) → G (.construct t (some es) .synthetic)

theorem hereditary_true (c : Container) : Hereditary c fun _ => True := by
  constructor <;> intros <;> trivial

def Many (G : Expr → Prop) (n : Nat) (es : List Expr) : Prop := es.length = n ∧ ∀ e ∈ es, G e

def whole : Expr → Expr
  | .pending type => .construct type none .synthetic
  | e => e

theorem Hereditary.whole {c : Container} {G : Expr → Prop} (hG : Hereditary c G) {e : Expr}
    (he : G e) : G e.whole := by
  cases e with
  | pending type => exact hG.new type
  | _ => exact he

end Expr

namespace Stacked

variable {c : Container} {G : Expr → Prop} {α β : Type} {Q : α → Prop}

/-- At every place and whatever stands below, `n` expressions of a kind become `m`, and the result
is as `Q` says. -/
def Does (G : Expr → Prop) (f : Nat → Stacked α) (n m : Nat) (Q : α → Prop) : Prop :=
  ∀ es, Expr.Many G n es → ∃ a es', Q a ∧ Expr.Many G m es' ∧ ∀ place (stack : OperandStack),
    (f place).run.run (stack.topped es) = (.ok a, stack.topped es')

theorem run_bind (f : Stacked α) (g : α → Stacked β) (stack : OperandStack) :
    (f >>= g).run.run stack = match f.run.run stack with
      | (.ok a, rest) => (g a).run.run rest
      | (.error e, rest) => (.error e, rest) := by
  simp only [ExceptT.run_bind, StateT.run_bind]
  rcases f.run.run stack with ⟨a | e, q⟩ <;> rfl

theorem Does.pure {a : α} {n : Nat} (h : Q a) : Does G (fun _ => pure a) n n Q :=
  fun es hes => ⟨a, es, h, hes, fun _ _ => rfl⟩

theorem Does.bind {f : Nat → Stacked α} {g : α → Nat → Stacked β} {R : β → Prop} {n m k : Nat}
    (hf : Does G f n m Q) (hg : ∀ a, Q a → Does G (g a) m k R) :
    Does G (fun place => f place >>= fun a => g a place) n k R := by
  intro es hes
  obtain ⟨a, es', ha, hes', hrun⟩ := hf es hes
  obtain ⟨b, es'', hb, hes'', hrun'⟩ := hg a ha es' hes'
  refine ⟨b, es'', hb, hes'', fun place stack => ?_⟩
  rw [run_bind, hrun]
  exact hrun' place stack

theorem does_push {e : Expr} (he : G e) (n : Nat) :
    Does G (fun _ => push e) n (n + 1) fun _ => True := by
  intro es hes
  refine ⟨(), e :: es, trivial, ⟨?_, List.forall_mem_cons.mpr ⟨he, hes.2⟩⟩, fun _ _ => rfl⟩
  rw [List.length_cons, hes.1]

theorem valueOf_expr (place : Nat) (e : Expr) : valueOf place (.expr e) = .ok e.whole := by
  cases e <;> rfl

theorem does_pop (hG : Expr.Hereditary c G) (n : Nat) : Does G pop (n + 1) n G := by
  intro es hes
  cases es with
  | nil => cases hes.1
  | cons e es =>
    obtain ⟨he, hrest⟩ := List.forall_mem_cons.mp hes.2
    refine ⟨e.whole, es, hG.whole he, ⟨by simpa using hes.1, hrest⟩, fun place stack => ?_⟩
    show (valueOf place (.expr e), stack.topped es) = _
    rw [valueOf_expr]

theorem does_popOnto (hG : Expr.Hereditary c G) {acc : List Expr} (hacc : ∀ e ∈ acc, G e)
    (k n : Nat) :
    Does G (fun place => popOnto acc place k) (n + k) n fun es => ∀ e ∈ es, G e := by
  induction k generalizing acc n with
  | zero => exact .pure hacc
  | succ k ih =>
    exact .bind (does_pop hG (n + k)) fun e he => ih (List.forall_mem_cons.mpr ⟨he, hacc⟩) n

theorem does_popMany (hG : Expr.Hereditary c G) (k n : Nat) :
    Does G (popMany k) (n + k) n fun es => ∀ e ∈ es, G e :=
  does_popOnto hG (by simp) k n

theorem does_popArguments (hG : Expr.Hereditary c G) (k j n : Nat) :
    Does G (popMany k) (n + (k + j)) (n + j) fun es => ∀ e ∈ es, G e := by
  have := does_popMany hG k (n + j)
  rwa [Nat.add_assoc, Nat.add_comm j] at this

theorem does_dup (n : Nat) : Does G dup (n + 1) (n + 2) fun _ => True := by
  intro es hes
  cases es with
  | nil => cases hes.1
  | cons e es =>
    have he := (List.forall_mem_cons.mp hes.2).1
    exact ⟨(), e :: e :: es, trivial, ⟨by simpa using hes.1, List.forall_mem_cons.mpr ⟨he, hes.2⟩⟩,
      fun _ _ => rfl⟩

theorem does_apply (hG : Expr.Hereditary c G) {f : Expr → Expr} (hf : ∀ e, G e → G (f e))
    (n : Nat) :
    Does G (apply f) (n + 1) (n + 1) fun _ => True :=
  .bind (does_pop hG n) fun e he => does_push (hf e he) n

theorem does_applyTwo (hG : Expr.Hereditary c G) {f : Expr → Expr → Expr}
    (hf : ∀ l r, G l → G r → G (f l r)) (n : Nat) :
    Does G (applyTwo f) (n + 2) (n + 1) fun _ => True :=
  .bind (does_pop hG (n + 1)) fun right hr =>
    .bind (does_pop hG n) fun left hl => does_push (hf left right hl hr) n

end Stacked

theorem NameTable.resolve_ok {t : NameTable} {i : UInt16} (h : i.toNat < t.size) (id : TableId) :
    ∃ name, t.get? i = some name ∧ t.resolve id i = .ok name := by
  rw [NameTable.size_eq] at h
  refine ⟨t.toList[i.toNat], ?_, ?_⟩ <;>
    simp only [NameTable.resolve, NameTable.get?_eq, List.getElem?_eq_getElem h]

namespace Library

open Stacked

variable {c : Container} {G : Expr → Prop}

theorem does_symbol {s : SymbolId} (h : s.index.toNat < c.symbols.size) (n : Nat) :
    Does G (fun _ => (ofContainer c).symbol s) n n c.Knows := by
  obtain ⟨name, hname, hresolve⟩ := NameTable.resolve_ok h .symbols
  have hrun : (ofContainer c).symbol s = pure name := by
    simp only [Library.symbol, ofContainer, Container.symbol, hresolve]
  rw [hrun]
  exact .pure (.symbol hname)

theorem does_string {s : StringId} (h : s.index.toNat < c.strings.size) (n : Nat) :
    Does G (fun _ => (ofContainer c).string s) n n fun _ => True := by
  obtain ⟨value, -, hvalue⟩ := NameTable.resolve_ok h .strings
  have hrun : (ofContainer c).string s = pure value := by
    simp only [Library.string, ofContainer, hvalue]
  rw [hrun]
  exact .pure trivial

/-- A slot is read as a variable. Of a local one, the kind depends on how it is named. -/
theorem does_slot (hG : Expr.Hereditary c G) {s : Slot} {locals : Nat} (h : s.Resolves c locals)
    {names : SlotNames}
    (hlocal : s.isGlobal = false → G (.variable (names.token s.index.toNat))) (n : Nat) :
    Does G (fun _ => (ofContainer c).slot names s) n n fun e => G e ∧ ∃ t, e = .variable t := by
  unfold Library.slot
  unfold Slot.Resolves at h
  split at h
  · next hglobal =>
    obtain ⟨name, hname, hresolve⟩ := NameTable.resolve_ok h .globals
    rw [if_pos hglobal]
    simp only [ofContainer, hresolve]
    exact .pure ⟨hG.name (.global hname), _, rfl⟩
  · next hglobal =>
    rw [if_neg hglobal]
    exact .pure ⟨hlocal (Bool.eq_false_iff.mpr hglobal), _, rfl⟩

theorem does_inSpace (hG : Expr.Hereditary c G) {s : SymbolId} (h : s.index.toNat < c.symbols.size)
    (op : AccessOp) {right : Expr} (hr : G right) (n : Nat) :
    Does G (fun _ => (ofContainer c).inSpace s op right) n n fun e =>
      G e ∧ ∃ l o r, e = .binary l o r :=
  .bind (does_symbol h n) fun _ hname => .pure ⟨hG.access _ (hG.name hname) hr, _, _, _, rfl⟩

/-- A call that leads to a function finds its name. -/
theorem does_function {target : UInt32} {f : String} {argc : UInt8}
    (h : c.LeadsTo target f argc) (n : Nat) :
    Does G (fun _ => (ofContainer c).function target) n n c.Knows := by
  obtain ⟨k, e, hk, -, -, ht⟩ := h
  obtain ⟨hlt, hke⟩ := List.getElem?_eq_some_iff.mp hk
  have hmem : (e, target.toNat) ∈ c.functions.zip c.functionOffsets := by
    refine List.mem_iff_getElem.mpr ⟨k, ?_, ?_⟩
    · simpa [Container.functionOffsets_eq] using hlt
    · simp [Container.functionOffsets_eq, hke, ht]
  have hsome : (ofContainer c).functionAt[target.toNat]?.isSome :=
    isSome_foldl_insertIfNew (f := fun x : FunctionEntry × Nat => x.2) (g := fun x => x.1.name)
      (Or.inr ⟨_, hmem, rfl⟩)
  obtain ⟨name, hname⟩ := Option.isSome_iff_exists.mp hsome
  have hknows : c.Knows name := by
    rcases mem_of_foldl_insertIfNew hname with h | ⟨x, hx, -, rfl⟩
    · simp at h
    · exact .function (List.of_mem_zip hx).1
  unfold Library.function
  rw [hname]
  exact .pure hknows

end Library

section

open Stacked Library

variable {c : Container} {G : Expr → Prop} {locals : Nat} {i : Instruction} {names : SlotNames}

theorem does_step_operator (hG : Expr.Hereditary c G) (h : i.isOperator) (hr : i.Resolves c locals)
    (hget : ∀ s, i = .getVariable s → s.isGlobal = false →
      G (.variable (names.token s.index.toNat))) (n : Nat) :
    Does G (step (ofContainer c) names i) (n + i.takes) (n + 1) (· = none) := by
  have hnone {f : Nat → Stacked Unit} {k : Nat} (hf : Does G f k (n + 1) fun _ => True) :
      Does G (fun place => do f place; return none) k (n + 1) (· = (none : Option Stmt)) :=
    .bind hf fun _ _ => .pure rfl
  have hpush {e : Expr} (he : G e) : Does G (fun _ => do Stacked.push e; return none) n (n + 1)
      (· = (none : Option Stmt)) :=
    hnone (does_push he n)
  have hmember {e : Expr} {name : String} (he : G e) (hn : c.Knows name) : G (e.ofMember name) :=
    hG.access _ he (hG.name hn)
  cases i with
  | binary op => exact hnone (does_applyTwo hG (fun _ _ hl hr => hG.binary _ hl hr) n)
  | property p => exact hnone (does_apply hG (fun _ he => hG.access _ he (hG.property p)) n)
  | array op =>
    exact .bind (does_popArguments hG op.arity 1 n) fun args hargs => hnone
      (does_apply hG (fun _ he => hG.call (hG.access _ he (hG.arrayOp op)) hargs) n)
  | pushNothing | pushTrue | pushFalse | pushZero | pushInt8 | pushInt16 | pushInt32 | pushFloat =>
    exact hpush (hG.literal _)
  | pushString s => exact .bind (does_string hr n) fun value _ => hpush (hG.literal _)
  | getVariable s =>
    exact .bind (does_slot hG hr (hget s rfl) n) fun e he => hpush he.1
  | getMember m =>
    exact .bind (does_pop hG n) fun receiver he => .bind (does_symbol hr n) fun name hn =>
      hpush (hmember he hn)
  | getThisMember m =>
    exact .bind (does_symbol hr n) fun name hn => hpush (hmember hG.this hn)
  | getDynamicMember =>
    exact hnone (does_applyTwo hG (fun _ _ hl hr => hG.access _ hl hr) n)
  | getGameVariable space name =>
    exact .bind (does_symbol hr.2 n) fun name hn =>
      .bind (does_inSpace hG hr.1 _ (hG.name hn) n) fun e he => hpush he.1
  | getDynamicGameVariable space =>
    exact .bind (does_pop hG n) fun name hn => .bind (does_inSpace hG hr _ hn n) fun e he =>
      hpush he.1
  | getElement => exact hnone (does_applyTwo hG (fun _ _ ha hi => hG.index ha hi) n)
  | createArray count =>
    exact .bind (does_popMany hG count.toNat n) fun es hes => hpush (hG.array hes)
  | unary op => exact hnone (does_apply hG (fun _ he => hG.unary _ he) n)
  | callFunction target argc =>
    obtain ⟨f, hf⟩ := hr
    exact .bind (does_function hf _) fun name hn =>
      .bind (does_popMany hG argc.toNat n) fun args hargs => hpush (hG.call (hG.name hn) hargs)
  | callGameFunction space name argc =>
    exact .bind (does_popMany hG argc.toNat n) fun args hargs =>
      .bind (does_symbol hr.2 n) fun name hn =>
        .bind (does_inSpace hG hr.1 _ (hG.name hn) n) fun e he => hpush (hG.call he.1 hargs)
  | callDynamicGameFunction space argc =>
    exact .bind (does_popArguments hG argc.toNat 1 n) fun args hargs =>
      .bind (does_pop hG n) fun name hn => .bind (does_inSpace hG hr _ hn n) fun e he =>
        hpush (hG.call he.1 hargs)
  | callMethod m argc =>
    exact .bind (does_popArguments hG argc.toNat 2 n) fun args hargs =>
      .bind (does_pop hG (n + 1)) fun copy _ => .bind (does_pop hG n) fun receiver he =>
        .bind (does_symbol hr n) fun name hn => hpush (hG.call (hmember he hn) hargs)
  | callThisMethod m argc =>
    exact .bind (does_popMany hG argc.toNat n) fun args hargs =>
      .bind (does_symbol hr n) fun name hn => hpush (hG.call (hmember hG.this hn) hargs)
  | callDynamicMethod argc =>
    exact .bind (does_popArguments hG argc.toNat 3 n) fun args hargs =>
      .bind (does_pop hG (n + 2)) fun name hn => .bind (does_pop hG (n + 1)) fun copy _ =>
        .bind (does_pop hG n) fun receiver he => hpush (hG.call (hG.access _ he hn) hargs)
  | createObject type => exact .bind (does_symbol hr n) fun name _ => hpush (hG.pending _)
  | unresolvedCall => exact hr.elim
  | _ => cases h

def Completes (P : Stmt → Prop) (r : Option Stmt) : Prop := ∃ s, r = some s ∧ P s

/-- An assignment to a target of a kind, of a value of that kind, where the index of a target that
is an element is of that kind too. -/
def Stmt.Assigns (G : Expr → Prop) (s : Stmt) : Prop :=
  ∃ t v, s = .assign t v ∧ G t ∧ G v ∧ ∀ a i span, t.ungrouped = .index a i span → G i

theorem does_step_store (hG : Expr.Hereditary c G) (h : i.isStore) (hr : i.Resolves c locals)
    (hset : ∀ s, i = .setVariable s → s.isGlobal = false →
      G (.variable (names.token s.index.toNat))) :
    Does G (step (ofContainer c) names i) i.takes 0 (Completes (Stmt.Assigns G)) := by
  have hdone {t v : Expr} (n : Nat) (ht : G t) (hv : G v)
      (hi : ∀ a i span, t.ungrouped = .index a i span → G i) :
      Does G (fun _ => pure (some (.assign t v))) n n (Completes (Stmt.Assigns G)) :=
    .pure ⟨_, rfl, t, v, rfl, ht, hv, hi⟩
  have hmember {e : Expr} {name : String} (he : G e) (hn : c.Knows name) : G (e.ofMember name) :=
    hG.access _ he (hG.name hn)
  cases i with
  | setVariable s =>
    refine .bind (does_pop hG 0) fun value hv =>
      .bind (does_slot hG hr (hset s rfl) 0) fun e he => ?_
    obtain ⟨he, t, rfl⟩ := he
    exact hdone 0 he hv nofun
  | setMember m =>
    exact .bind (does_pop hG 1) fun value hv => .bind (does_pop hG 0) fun receiver he =>
      .bind (does_symbol hr 0) fun name hn => hdone 0 (hmember he hn) hv nofun
  | setThisMember m =>
    exact .bind (does_pop hG 0) fun value hv => .bind (does_symbol hr 0) fun name hn =>
      hdone 0 (hmember hG.this hn) hv nofun
  | setDynamicMember =>
    exact .bind (does_pop hG 2) fun value hv => .bind (does_pop hG 1) fun name hn =>
      .bind (does_pop hG 0) fun receiver he => hdone 0 (hG.access _ he hn) hv nofun
  | setGameVariable space name =>
    refine .bind (does_pop hG 0) fun value hv => .bind (does_symbol hr.2 0) fun name hn =>
      .bind (does_inSpace hG hr.1 _ (hG.name hn) 0) fun e he => ?_
    obtain ⟨he, l, o, r, rfl⟩ := he
    exact hdone 0 he hv nofun
  | setElement =>
    refine .bind (does_pop hG 2) fun value hv => .bind (does_pop hG 1) fun at_ hat =>
      .bind (does_pop hG 0) fun array ha => hdone 0 (hG.index ha hat) hv ?_
    rintro _ _ _ ⟨⟩
    exact hat
  | _ => cases h

theorem does_step_return (hG : Expr.Hereditary c G) (l : Library) (names : SlotNames) :
    Does G (step l names .return_) 1 0 (Completes fun s => ∃ v, s = .ofReturn v ∧ G v) :=
  .bind (does_pop hG 0) fun value hv => .pure ⟨_, rfl, value, rfl, hv⟩

theorem does_step_pop (hG : Expr.Hereditary c G) (l : Library) (names : SlotNames) :
    Does G (step l names .pop) 1 0 (Completes fun s => ∃ e, s = .expr e ∧ G e) := by
  intro es hes
  obtain ⟨e, rfl⟩ := List.length_eq_one_iff.mp hes.1
  have he := hG.whole (List.forall_mem_singleton.mp hes.2)
  refine ⟨some (.expr e.whole), [], ⟨_, rfl, _, rfl, he⟩, ⟨rfl, by simp⟩, fun place stack => ?_⟩
  cases e <;> rfl

theorem does_step_dup (l : Library) (names : SlotNames) (n : Nat) :
    Does G (step l names .dup) (n + 1) (n + 2) (· = none) :=
  .bind (does_dup n) fun _ _ => .pure rfl

end

/-! What straight code shows. -/

namespace Library

open Stacked

/-- At every place, code turns one stack into another and completes no statement. -/
def Runs (l : Library) (names : SlotNames) : Code → OperandStack → OperandStack → Prop
  | [], stack, rest => stack = rest
  | i :: x, stack, rest => ∃ mid,
      (∀ place, (step l names i place).run.run stack = (.ok none, mid)) ∧ Runs l names x mid rest

def Shows (l : Library) (names : SlotNames) (x : Code) (es : List Expr) : Prop :=
  ∀ stack : OperandStack, l.Runs names x stack (stack.topped es)

def Builds (l : Library) (names : SlotNames) (G : Expr → Prop) (n : Nat) (x : Code) : Prop :=
  ∃ es, Expr.Many G n es ∧ l.Shows names x es

variable {l : Library} {names : SlotNames} {x y : Code} {i : Instruction}
  {s t u : OperandStack} {G : Expr → Prop} {n m : Nat}

theorem Runs.append (hx : l.Runs names x s t) (hy : l.Runs names y t u) :
    l.Runs names (x ++ y) s u := by
  induction x generalizing s with
  | nil =>
    cases hx
    exact hy
  | cons i x ih =>
    obtain ⟨mid, hi, hx⟩ := hx
    exact ⟨mid, hi, ih hx⟩

theorem Runs.one (h : ∀ place, (step l names i place).run.run s = (.ok none, t)) :
    l.Runs names [i] s t :=
  ⟨t, h, rfl⟩

theorem Runs.unique (ht : l.Runs names x s t) (hu : l.Runs names x s u) : t = u := by
  induction x generalizing s with
  | nil => exact ht.symm.trans hu
  | cons i x ih =>
    obtain ⟨mid, hi, ht⟩ := ht
    obtain ⟨mid', hi', hu⟩ := hu
    obtain rfl : mid = mid' := congrArg Prod.snd ((hi 0).symm.trans (hi' 0))
    exact ih ht hu

theorem Builds.nil : l.Builds names G 0 [] :=
  ⟨[], ⟨rfl, by simp⟩, fun _ => rfl⟩

theorem Builds.step (hx : l.Builds names G n x) (hi : Does G (step l names i) n m (· = none)) :
    l.Builds names G m (x ++ [i]) := by
  obtain ⟨es, hes, hx⟩ := hx
  obtain ⟨_, es', rfl, hes', hrun⟩ := hi es hes
  exact ⟨es', hes', fun stack => (hx stack).append (.one fun place => hrun place stack)⟩

/-- A construction shows one expression: the object, a copy, the arguments, the method that runs,
and its result, which is dropped. An object and the method that constructs it have one name. -/
theorem Builds.construct {c : Container} {args : Code} {argc : UInt8} {type : SymbolId}
    (hG : Expr.Hereditary c G) (hx : (ofContainer c).Builds names G n x)
    (hargs : (ofContainer c).Builds names G argc.toNat args)
    (htype : type.index.toNat < c.symbols.size) :
    (ofContainer c).Builds names G (n + 1) (x ++ [Instruction.createObject type, .dup] ++ args
      ++ [Instruction.lookupMethod type, .callIndirect argc, .pop]) := by
  obtain ⟨name, -, hresolve⟩ := NameTable.resolve_ok htype .symbols
  have hsymbol : (ofContainer c).symbol type = pure name := by
    simp only [Library.symbol, ofContainer, Container.symbol, hresolve]
  obtain ⟨es, hes, hx⟩ := hx
  obtain ⟨as, has, hargs⟩ := hargs
  obtain ⟨args', none, hargs', hnone, hpop⟩ := does_popMany hG argc.toNat 0 as (by simpa using has)
  obtain rfl := List.eq_nil_of_length_eq_zero hnone.1
  let t : Token := .identifier name
  refine ⟨.construct t (some args') .synthetic :: es, ⟨by rw [List.length_cons, hes.1],
    List.forall_mem_cons.mpr ⟨hG.construct t hargs', hes.2⟩⟩, fun stack => ?_⟩
  let object : OperandStack := .expr (.pending t) :: stack.topped es
  refine ((hx stack).append (u := .expr (.pending t) :: object) ?_).append (hargs _) |>.append ?_
  · refine ⟨object, fun place => ?_, _, fun place => rfl, rfl⟩
    simp only [Lss.step, hsymbol]
    rfl
  · refine ⟨.method t :: OperandStack.topped as (.expr (.pending t) :: object), fun place => ?_,
      .constructed t args' :: object, fun place => ?_, _, fun place => rfl, rfl⟩
    · simp only [Lss.step, hsymbol]
      rfl
    · simp only [Lss.step]
      rw [run_bind]
      show (Stacked.popMany argc.toNat place >>= _).run.run _ = _
      rw [run_bind, hpop]
      show (if t.text = t.text then _ else _ : Stacked (Option Stmt)).run.run _ = _
      rw [if_pos rfl]
      rfl

end Library

/-- Straight code shows its values. -/
theorem Pushes.builds {c : Container} {locals n : Nat} {x : Code}
    (h : Pushes (Instruction.Resolves c locals) n x) (names : SlotNames) :
    (Library.ofContainer c).Builds names (fun _ => True) n x := by
  have hG := Expr.hereditary_true c
  induction h with
  | nil => exact .nil
  | apply _ hop hr ih => exact ih.step (does_step_operator hG hop hr (fun _ _ _ => trivial) _)
  | dup _ ih => exact ih.step (does_step_dup _ names _)
  | construct _ _ hc _ ih iha => exact .construct hG ih iha hc

namespace Body

open Stacked Library

variable {b : Body} {code : Code} {i stop : Nat} {instruction : Instruction} {acc : List Stmt}
  {stack rest : OperandStack}

/-- An instruction that neither branches nor starts a loop is one step. -/
theorem region_step (hl : b.Laid code) (hi : code[i]? = some instruction)
    (hbranch : ∀ kind distance, instruction ≠ .branch kind distance) (hstop : i < stop)
    (hloop : b.loopEnd? i stop = none) :
    b.region stack acc i stop =
      match (step b.library b.names instruction i).run.run stack with
      | (.error e, _) => .error e
      | (.ok none, stack) => b.region stack acc (i + 1) stop
      | (.ok (some s), stack) => b.region stack (s :: acc) (i + 1) stop := by
  have hnone : (if stack.isEmpty then b.loopEnd? i stop else none) = none := by
    rw [hloop, ite_self]
  rw [region, dif_pos hstop, hl.getElem?, hi, hnone]
  cases instruction with
  | branch kind distance => exact absurd rfl (hbranch kind distance)
  | _ => rfl

/-- Straight code in which no loop starts is read to its end. -/
theorem region_runs (hl : b.Laid code) {pre x post : Code} (h : b.library.Runs b.names x stack rest)
    (acc : List Stmt) (hcode : code = pre ++ x ++ post) (hstop : (pre ++ x).length ≤ stop)
    (hloop : ∀ k < x.length, b.loopEnd? (pre.length + k) stop = none) :
    b.region stack acc pre.length stop = b.region rest acc (pre ++ x).length stop := by
  induction x generalizing pre stack with
  | nil =>
    cases h
    rw [List.append_nil]
  | cons i x ih =>
    obtain ⟨mid, hi, hx⟩ := h
    have hbranch : ∀ kind distance, i ≠ .branch kind distance := by
      rintro kind distance rfl
      cases hi 0
    have hget : code[pre.length]? = some i := by simp [hcode]
    have hnext : (pre ++ [i]).length = pre.length + 1 := List.length_append
    rw [List.append_cons] at hcode hstop ⊢
    have hread := ih hx hcode hstop fun k hk => by
      rw [hnext, Nat.add_assoc, Nat.add_comm 1]
      exact hloop (k + 1) (by simpa using hk)
    rw [region_step hl hget hbranch ?_ (hloop 0 (Nat.succ_pos _)), hi, ← hread, hnext]
    rw [List.length_append, hnext] at hstop
    omega

/-- An instruction that completes a statement of what was computed before it. -/
theorem region_complete (hl : b.Laid code) (acc : List Stmt) (hi : code[i]? = some instruction)
    (hbranch : ∀ kind distance, instruction ≠ .branch kind distance) (hstop : i < stop)
    (hloop : b.loopEnd? i stop = none) {G : Expr → Prop} {n : Nat} {P : Stmt → Prop}
    (hdoes : Does G (step b.library b.names instruction) n 0 (Completes P)) {es : List Expr}
    (hes : Expr.Many G n es) : ∃ s, P s ∧
      b.region (stack.topped es) acc i stop = b.region stack (s :: acc) (i + 1) stop := by
  obtain ⟨r, es', ⟨s, rfl, hs⟩, hes', hrun⟩ := hdoes es hes
  obtain rfl := List.eq_nil_of_length_eq_zero hes'.1
  refine ⟨s, hs, ?_⟩
  rw [region_step hl hi hbranch hstop hloop, hrun]
  rfl

end Body

end Lss
