import Lss.Proofs.Effects
import Lss.Proofs.Straight

/-!
# What an instruction does to the stack

Every instruction follows one of a few rules: it leaves a value made of the topmost, it completes a
statement of them, it copies the top, or it is one of the steps of a construction. Whatever code a
step belongs to, if it succeeds it does what the rule says, and what it calls or stores to comes
behind the effects of its operands.
-/
namespace Lss

inductive StackRule where
  /-- One value is computed from this many. -/
  | value (operands : Nat)
  /-- It is computed by a call. -/
  | call (operands : Nat)
  /-- It is computed by a call of a method, whose receiver stands twice below the operands. -/
  | method (operands : Nat)
  /-- The operands go into a statement, or are what a branch tests. -/
  | settle (operands : Nat)
  | copy
  /-- A method is looked up. -/
  | lookup
  /-- The method on top runs as the constructor of the object below its arguments. -/
  | run (arguments : Nat)
  /-- The top ends a statement, unless it is what a constructor left. -/
  | drop
  | pass
deriving DecidableEq, Repr

/-- Two copies of a receiver are more than the one value that a call of a method is computed
with. -/
def Instruction.rule : Instruction → StackRule
  | .dup => .copy
  | .lookupMethod _ => .lookup
  | .callIndirect argc => .run argc.toNat
  | .pop => .drop
  | .callMethod _ argc => .method argc.toNat
  | .callDynamicMethod argc => .method (argc.toNat + 1)
  | .callFunction _ argc | .callGameFunction _ _ argc | .callThisMethod _ argc
  | .unresolvedCall _ argc => .call argc.toNat
  | .callDynamicGameFunction _ argc => .call (argc.toNat + 1)
  | .array op => .call (op.arity + 1)
  | .setVariable _ | .setThisMember _ | .setGameVariable _ _ | .return_
  | .branch .ifFalse _ | .branch .ifTrue _ => .settle 1
  | .setMember _ => .settle 2
  | .setDynamicMember | .setElement => .settle 3
  | .branch .always _ | .allocateLocals _ | .checkArgumentCount _ | .lineNumber _ => .pass
  | i => .value i.takes

def StackValue.effects : StackValue → List Effect
  | .expr e => e.effects
  | .method _ => []
  | .constructed _ arguments => Expr.allEffects arguments ++ [Effect.construct arguments.length]

@[simp] theorem StackValue.effects_expr (e : Expr) : (StackValue.expr e).effects = e.effects := rfl

@[simp] theorem StackValue.effects_method (name : Token) : (StackValue.method name).effects = [] :=
  rfl

@[simp] theorem StackValue.effects_constructed (type : Token) (es : List Expr) :
    (StackValue.constructed type es).effects =
      Expr.allEffects es ++ [Effect.construct es.length] := rfl

def StackValue.IsExpr (v : StackValue) : Prop := ∃ e, v = .expr e

namespace OperandStack

def effects : OperandStack → List Effect
  | [] => []
  | v :: below => effects below ++ v.effects

structure Operands (n : Nat) (vs : OperandStack) : Prop where
  length_eq : vs.length = n
  isExpr : ∀ v ∈ vs, v.IsExpr

variable {n m : Nat} {vs ws : OperandStack}

@[simp] theorem effects_nil : effects [] = [] := rfl

@[simp] theorem effects_cons (v : StackValue) : effects (v :: vs) = effects vs ++ v.effects := rfl

@[simp] theorem effects_append : effects (vs ++ ws) = effects ws ++ effects vs := by
  induction vs with
  | nil => simp
  | cons v vs ih => simp [ih]

theorem Operands.nil : Operands 0 [] := ⟨rfl, nofun⟩

theorem Operands.one (e : Expr) : Operands 1 [.expr e] :=
  ⟨rfl, fun _ h => ⟨e, List.mem_singleton.mp h⟩⟩

theorem Operands.append (hv : Operands n vs) (hw : Operands m ws) :
    Operands (n + m) (vs ++ ws) := by
  refine ⟨?_, List.forall_mem_append.mpr ⟨hv.isExpr, hw.isExpr⟩⟩
  rw [List.length_append, hv.length_eq, hw.length_eq]

end OperandStack

open OperandStack

/-- One step by a rule: the call or the store that it is, the stack before, the statement that it
completes, and the stack after. -/
inductive Moves : StackRule → List Effect → OperandStack → Option Stmt → OperandStack → Prop
  | value {n vs e rest} : Operands n vs → e.effects = vs.effects →
      Moves (.value n) [] (vs ++ rest) none (.expr e :: rest)
  | call {n vs e fx rest} : Operands n vs → e.effects = vs.effects ++ fx →
      Moves (.call n) fx (vs ++ rest) none (.expr e :: rest)
  | method {n vs copy receiver e fx rest} : Operands n vs → copy.IsExpr → receiver.IsExpr →
      e.effects = receiver.effects ++ vs.effects ++ fx →
      Moves (.method n) fx (vs ++ copy :: receiver :: rest) none (.expr e :: rest)
  | settle {n vs s fx rest} : Operands n vs → s.effects = vs.effects ++ fx →
      Moves (.settle n) fx (vs ++ rest) (some s) rest
  | copy {v rest} : Moves .copy [] (v :: rest) none (v :: v :: rest)
  | lookup {name rest} : Moves .lookup [] rest none (.method name :: rest)
  | run {n vs name type type' arguments rest} : Operands n vs → arguments.length = n →
      Expr.allEffects arguments = vs.effects →
      Moves (.run n) [.construct n] (.method name :: (vs ++ .expr (.pending type) :: rest)) none
        (.constructed type' arguments :: rest)
  | fuse {type type' arguments rest} :
      Moves .drop [] (.constructed type arguments :: .expr (.pending type') :: rest) none
        (.expr (.construct type (some arguments) .synthetic) :: rest)
  | drop {e s rest} : s.effects = e.effects → Moves .drop [] (.expr e :: rest) (some s) rest
  | pass {stack} : Moves .pass [] stack none stack

namespace Stacked

variable {α β : Type} {n m : Nat} {Q : α → List Effect → Prop}

theorem run_bind_eq_ok {f : Stacked α} {g : α → Stacked β} {stack rest : OperandStack} {b : β} :
    (f >>= g).run.run stack = (.ok b, rest) ↔ ∃ a between, f.run.run stack = (.ok a, between) ∧
      (g a).run.run between = (.ok b, rest) := by
  rw [run_bind]
  split
  · next a between ha =>
    constructor
    · exact fun h => ⟨a, between, ha, h⟩
    rintro ⟨_, _, heq, h⟩
    rw [ha] at heq
    cases heq
    exact h
  · next ha =>
    constructor
    · intro h
      cases h
    rintro ⟨_, _, heq, -⟩
    rw [ha] at heq
    cases heq

/-- If it succeeds, it leaves the stack alone, and the result is as `P` says. -/
def Looks (f : Stacked α) (P : α → Prop) : Prop :=
  ∀ stack a rest, f.run.run stack = (.ok a, rest) → rest = stack ∧ P a

/-- If it succeeds, it takes `n` expressions off, and the result is as `Q` says of their effects. -/
def Takes (f : Stacked α) (n : Nat) (Q : α → List Effect → Prop) : Prop :=
  ∀ stack a rest, f.run.run stack = (.ok a, rest) →
    ∃ vs, stack = vs ++ rest ∧ Operands n vs ∧ Q a vs.effects

/-- If it succeeds, it puts an expression in the place of `n` and completes no statement; `Q`
relates the effects of those to the effects of this one. -/
def Leaves (f : Stacked (Option Stmt)) (n : Nat) (Q : List Effect → List Effect → Prop) : Prop :=
  ∀ stack r above, f.run.run stack = (.ok r, above) → r = none ∧
    ∃ vs e rest, stack = vs ++ rest ∧ above = .expr e :: rest ∧ Operands n vs ∧
      Q vs.effects e.effects

theorem Takes.pure {a : α} (h : Q a []) : Takes (pure a) 0 Q := by
  intro stack b rest hrun
  cases hrun
  exact ⟨[], rfl, .nil, h⟩

theorem Takes.bind {f : Stacked α} {g : α → Stacked β} {R : β → List Effect → Prop}
    (hf : Takes f n Q) (hg : ∀ a x, Q a x → Takes (g a) m fun b y => R b (y ++ x)) :
    Takes (f >>= g) (n + m) R := by
  intro stack b rest hrun
  obtain ⟨a, between, ha, hb⟩ := run_bind_eq_ok.mp hrun
  obtain ⟨vs, rfl, hvs, hQ⟩ := hf _ _ _ ha
  obtain ⟨ws, rfl, hws, hR⟩ := hg a _ hQ _ _ _ hb
  refine ⟨vs ++ ws, (List.append_assoc vs ws rest).symm, hvs.append hws, ?_⟩
  rwa [effects_append]

theorem Looks.takes {f : Stacked α} {g : α → Stacked β} {P : α → Prop}
    {R : β → List Effect → Prop} (hf : Looks f P) (hg : ∀ a, P a → Takes (g a) n R) :
    Takes (f >>= g) n R := by
  intro stack b rest hrun
  obtain ⟨a, between, ha, hb⟩ := run_bind_eq_ok.mp hrun
  obtain ⟨rfl, hP⟩ := hf _ _ _ ha
  exact hg a hP _ _ _ hb

theorem Leaves.push {e : Expr} {Q : List Effect → List Effect → Prop} (h : Q [] e.effects) :
    Leaves (do Stacked.push e; return none) 0 Q := by
  intro stack r above hrun
  cases hrun
  exact ⟨rfl, [], e, stack, rfl, rfl, .nil, h⟩

theorem Takes.leaves {f : Stacked α} {g : α → Stacked (Option Stmt)}
    {R : List Effect → List Effect → Prop} (hf : Takes f n Q)
    (hg : ∀ a x, Q a x → Leaves (g a) m fun y z => R (y ++ x) z) : Leaves (f >>= g) (n + m) R := by
  intro stack r above hrun
  obtain ⟨a, between, ha, hr⟩ := run_bind_eq_ok.mp hrun
  obtain ⟨vs, rfl, hvs, hQ⟩ := hf _ _ _ ha
  obtain ⟨hnone, ws, e, rest, rfl, rfl, hws, hR⟩ := hg a _ hQ _ _ _ hr
  refine ⟨hnone, vs ++ ws, e, rest, (List.append_assoc vs ws rest).symm, rfl, hvs.append hws, ?_⟩
  rwa [effects_append]

theorem Looks.leaves {f : Stacked α} {g : α → Stacked (Option Stmt)} {P : α → Prop}
    {R : List Effect → List Effect → Prop} (hf : Looks f P) (hg : ∀ a, P a → Leaves (g a) n R) :
    Leaves (f >>= g) n R := by
  intro stack r above hrun
  obtain ⟨a, between, ha, hr⟩ := run_bind_eq_ok.mp hrun
  obtain ⟨rfl, hP⟩ := hf _ _ _ ha
  exact hg a hP _ _ _ hr

/-- What is taken for an expression is one, and an object whose constructor has not run stands for
one that is made without arguments. -/
theorem valueOf_eq_ok {v : StackValue} {place : Nat} {e : Expr} (h : valueOf place v = .ok e) :
    v.IsExpr ∧ e.effects = v.effects := by
  unfold valueOf at h
  split at h <;> cases h
  · exact ⟨⟨_, rfl⟩, rfl⟩
  · exact ⟨⟨_, rfl⟩, rfl⟩

theorem pop_eq_ok {place : Nat} {stack rest : OperandStack} {e : Expr}
    (h : (pop place).run.run stack = (.ok e, rest)) :
    ∃ v, stack = v :: rest ∧ v.IsExpr ∧ e.effects = v.effects := by
  cases stack with
  | nil => cases h
  | cons v stack =>
    obtain ⟨hv, rfl⟩ := Prod.mk.inj h
    exact ⟨v, rfl, valueOf_eq_ok hv⟩

theorem takes_pop (place : Nat) : Takes (pop place) 1 fun e x => e.effects = x := by
  intro stack e rest h
  obtain ⟨_, rfl, ⟨e', rfl⟩, heffects⟩ := pop_eq_ok h
  exact ⟨[.expr e'], rfl, .one e', heffects⟩

theorem takes_popOnto (acc : List Expr) (place n : Nat) :
    Takes (popOnto acc place n) n fun es x =>
      es.length = n + acc.length ∧ Expr.allEffects es = x ++ Expr.allEffects acc := by
  induction n generalizing acc with
  | zero => exact .pure ⟨by simp, rfl⟩
  | succ n ih =>
    have h : Takes (popOnto acc place (n + 1)) (1 + n) fun es x =>
        es.length = n + 1 + acc.length ∧ Expr.allEffects es = x ++ Expr.allEffects acc := by
      refine .bind (takes_pop place) fun e x hx => ?_
      have := ih (e :: acc)
      simp only [List.length_cons, Expr.allEffects_cons, hx] at this
      simpa only [Nat.add_assoc, Nat.add_comm 1, List.append_assoc] using this
    rwa [Nat.add_comm 1 n] at h

theorem takes_popMany (n place : Nat) :
    Takes (popMany n place) n fun es x => es.length = n ∧ Expr.allEffects es = x := by
  simpa [popMany] using takes_popOnto [] place n

variable {R : List Effect → List Effect → Prop}

theorem leaves_apply {f : Expr → Expr} (h : ∀ e, R e.effects (f e).effects) (place : Nat) :
    Leaves (do apply f place; return none) 1 R := by
  simp only [apply, bind_assoc]
  refine (takes_pop place).leaves (m := 0) fun e x hx => .push ?_
  rw [List.nil_append, ← hx]
  exact h e

theorem leaves_applyTwo {f : Expr → Expr → Expr}
    (h : ∀ l r, R (l.effects ++ r.effects) (f l r).effects) (place : Nat) :
    Leaves (do applyTwo f place; return none) 2 R := by
  simp only [applyTwo, bind_assoc]
  refine (takes_pop place).leaves (m := 1) fun right x hx => ?_
  refine (takes_pop place).leaves (m := 0) fun left y hy => .push ?_
  rw [List.nil_append, ← hx, ← hy]
  exact h left right

end Stacked

theorem NameTable.get?_of_resolve {t : NameTable} {id : TableId} {i : UInt16} {name : String}
    (h : t.resolve id i = .ok name) : t.get? i = some name := by
  unfold resolve at h
  split at h
  · next hget =>
    cases h
    exact hget
  · cases h

open Stacked

namespace Library

variable {l : Library} {names : SlotNames}

theorem looks_pure {α : Type} {a : α} {P : α → Prop} (h : P a) : Looks (pure a) P := by
  intro stack b rest hrun
  cases hrun
  exact ⟨rfl, h⟩

theorem looks_throw {α : Type} (e : DecompileError) {P : α → Prop} : Looks (throw e) P := by
  intro stack b rest hrun
  cases hrun

theorem looks_symbol (s : SymbolId) : Looks (l.symbol s) fun name => l.symbol? s = some name := by
  unfold Library.symbol
  split
  · next h => exact looks_pure (NameTable.get?_of_resolve h)
  · exact looks_throw _

theorem looks_string (s : StringId) : Looks (l.string s) fun _ => True := by
  unfold Library.string
  split
  · exact looks_pure trivial
  · exact looks_throw _

theorem looks_slot (s : Slot) : Looks (l.slot names s) fun e =>
    e.effects = [] ∧ e.target = .variable (l.slotName? names s) := by
  unfold Library.slot Library.slotName?
  split
  · split
    · next h =>
      rw [NameTable.get?_of_resolve h]
      exact looks_pure ⟨rfl, rfl⟩
    · exact looks_throw _
  · exact looks_pure ⟨rfl, rfl⟩

theorem looks_inSpace (space : SymbolId) (op : AccessOp) (right : Expr) :
    Looks (l.inSpace space op right) fun e => e.effects = right.effects ∧
      ∃ name, l.symbol? space = some name ∧ e = (Expr.name name).ofAccess (.access op) right := by
  intro stack e rest h
  obtain ⟨name, between, hrun, he⟩ := run_bind_eq_ok.mp h
  obtain ⟨rfl, hname⟩ := looks_symbol space _ _ _ hrun
  cases he
  exact ⟨rfl, by simp, name, hname, rfl⟩

theorem looks_function (f : UInt32) :
    Looks (l.function f) fun name => l.functionAt[f.toNat]? = some name := by
  unfold Library.function
  split
  · next h => exact looks_pure h
  · exact looks_throw _

end Library

open Library

section

variable {l : Library} {names : SlotNames} {i : Instruction} {n place : Nat}

/-- Values that are computed without a call. -/
theorem step_value (h : i.rule = .value n) :
    Leaves (step l names i place) n fun x z => z = x := by
  cases i with
  | binary op => cases h; exact leaves_applyTwo (fun _ _ => by simp) place
  | property p => cases h; exact leaves_apply (fun _ => by simp [Expr.effects]) place
  | pushNothing | pushTrue | pushFalse | pushZero | pushInt8 | pushInt16 | pushInt32 | pushFloat =>
    cases h
    exact .push rfl
  | pushString s => cases h; exact (looks_string s).leaves fun value _ => .push rfl
  | getVariable s => cases h; exact (looks_slot s).leaves fun e he => .push he.1
  | getMember m =>
    cases h
    exact (takes_pop place).leaves fun receiver x hx => (looks_symbol m).leaves fun name _ =>
      .push (by simp [hx])
  | getThisMember m => cases h; exact (looks_symbol m).leaves fun name _ => .push (by simp)
  | getDynamicMember => cases h; exact leaves_applyTwo (fun _ _ => by simp) place
  | getGameVariable space name =>
    cases h
    exact (looks_symbol name).leaves fun n _ => (looks_inSpace space _ _).leaves fun e he =>
      .push he.1
  | getDynamicGameVariable space =>
    cases h
    exact (takes_pop place).leaves fun name x hx => (looks_inSpace space _ _).leaves fun e he =>
      .push (by simp [he.1, hx])
  | getElement => cases h; exact leaves_applyTwo (fun _ _ => by simp) place
  | createArray count =>
    cases h
    exact (takes_popMany count.toNat place).leaves
      fun es x hx => .push (by simp [Expr.effects, hx.2])
  | unary op => cases h; exact leaves_apply (fun _ => by simp) place
  | createObject type => cases h; exact (looks_symbol type).leaves fun name _ => .push rfl
  | branch kind d => cases kind <;> cases h
  | _ => cases h

/-- Values that are computed by a call. -/
theorem step_call (h : i.rule = .call n) :
    Leaves (step l names i place) n fun x z => z = x ++ (l.effect? names i).toList := by
  cases i with
  | array op =>
    cases h
    exact (takes_popMany op.arity place).leaves fun es x hx =>
      leaves_apply (fun e => by simp [hx]) place
  | callFunction f argc =>
    cases h
    exact (looks_function f).leaves fun name hname =>
      (takes_popMany argc.toNat place).leaves fun es x hx => .push (by simp [hname, hx])
  | callGameFunction space name argc =>
    cases h
    refine (takes_popMany argc.toNat place).leaves (m := 0) fun es x hx => ?_
    refine (looks_symbol name).leaves fun n hn => (looks_inSpace space _ _).leaves ?_
    rintro _ ⟨he, s, hs, rfl⟩
    exact .push (by simp [hn, hs, hx])
  | callDynamicGameFunction space argc =>
    cases h
    refine (takes_popMany argc.toNat place).leaves (m := 1) fun es x hx => ?_
    refine (takes_pop place).leaves (m := 0) fun name y hy => (looks_inSpace space _ _).leaves ?_
    rintro _ ⟨he, s, hs, rfl⟩
    exact .push (by simp [hy, hs, hx])
  | callThisMethod m argc =>
    cases h
    exact (takes_popMany argc.toNat place).leaves fun es x hx =>
      (looks_symbol m).leaves fun name hname => .push (by simp [hname, hx])
  | unresolvedCall =>
    intro stack r above hrun
    cases hrun
  | branch kind d => cases kind <;> cases h
  | _ => cases h

/-- Statements. -/
theorem step_settle (h : i.rule = .settle n) :
    Takes (step l names i place) n fun r x =>
      ∃ s, r = some s ∧ s.effects = x ++ (l.effect? names i).toList := by
  cases i with
  | setVariable s =>
    cases h
    refine (takes_pop place).bind (m := 0) fun value x hx => (looks_slot s).takes fun e he => ?_
    exact .pure ⟨_, rfl, by simp [Stmt.effects, he, hx]⟩
  | setMember m =>
    cases h
    refine (takes_pop place).bind (m := 1) fun value x hx => ?_
    refine (takes_pop place).bind (m := 0) fun receiver y hy => ?_
    exact (looks_symbol m).takes fun name hname =>
      .pure ⟨_, rfl, by simp [Stmt.effects, hname, hx, hy]⟩
  | setThisMember m =>
    cases h
    refine (takes_pop place).bind (m := 0) fun value x hx => ?_
    exact (looks_symbol m).takes fun name hname =>
      .pure ⟨_, rfl, by simp [Stmt.effects, hname, hx]⟩
  | setDynamicMember =>
    cases h
    refine (takes_pop place).bind (m := 2) fun value x hx => ?_
    refine (takes_pop place).bind (m := 1) fun name y hy => ?_
    refine (takes_pop place).bind (m := 0) fun receiver z hz => ?_
    exact .pure ⟨_, rfl, by simp [Stmt.effects, hx, hy, hz]⟩
  | setGameVariable space name =>
    cases h
    refine (takes_pop place).bind (m := 0) fun value x hx => ?_
    refine (looks_symbol name).takes fun n hn => (looks_inSpace space _ _).takes ?_
    rintro _ ⟨he, s, hs, rfl⟩
    exact .pure ⟨_, rfl, by simp [Stmt.effects, hn, hs, hx]⟩
  | setElement =>
    cases h
    refine (takes_pop place).bind (m := 2) fun value x hx => ?_
    refine (takes_pop place).bind (m := 1) fun at_ y hy => ?_
    refine (takes_pop place).bind (m := 0) fun receiver z hz => ?_
    exact .pure ⟨_, rfl, by simp [Stmt.effects, hx, hy, hz]⟩
  | return_ =>
    cases h
    refine (takes_pop place).bind (m := 0) fun value x hx => ?_
    exact .pure ⟨_, rfl, by simp [hx]⟩
  | branch kind d =>
    intro stack r above hrun
    cases hrun
  | _ => cases h

variable {stack rest : OperandStack} {r : Option Stmt}

theorem step_method (h : i.rule = .method n)
    (hrun : (step l names i place).run.run stack = (.ok r, rest)) :
    Moves (.method n) (l.effect? names i).toList stack r rest := by
  cases i with
  | callMethod m argc =>
    cases h
    obtain ⟨es, _, hes, hrun⟩ := run_bind_eq_ok.mp hrun
    obtain ⟨copy, _, hcopy, hrun⟩ := run_bind_eq_ok.mp hrun
    obtain ⟨receiver, _, hreceiver, hrun⟩ := run_bind_eq_ok.mp hrun
    obtain ⟨name, _, hsymbol, hrun⟩ := run_bind_eq_ok.mp hrun
    cases hrun
    obtain ⟨vs, rfl, hvs, hlen, heffects⟩ := takes_popMany _ _ _ _ _ hes
    obtain ⟨c, rfl, hc, -⟩ := pop_eq_ok hcopy
    obtain ⟨v, rfl, hv, hve⟩ := pop_eq_ok hreceiver
    obtain ⟨rfl, hname⟩ := looks_symbol m _ _ _ hsymbol
    exact .method hvs hc hv (by simp [hname, hlen, heffects, hve])
  | callDynamicMethod argc =>
    cases h
    obtain ⟨es, _, hes, hrun⟩ := run_bind_eq_ok.mp hrun
    obtain ⟨name, _, hname, hrun⟩ := run_bind_eq_ok.mp hrun
    obtain ⟨copy, _, hcopy, hrun⟩ := run_bind_eq_ok.mp hrun
    obtain ⟨receiver, _, hreceiver, hrun⟩ := run_bind_eq_ok.mp hrun
    cases hrun
    obtain ⟨vs, rfl, hvs, hlen, heffects⟩ := takes_popMany _ _ _ _ _ hes
    obtain ⟨ws, rfl, hws, hwe⟩ := takes_pop _ _ _ _ hname
    obtain ⟨c, rfl, hc, -⟩ := pop_eq_ok hcopy
    obtain ⟨v, rfl, hv, hve⟩ := pop_eq_ok hreceiver
    rw [← List.append_assoc]
    exact .method (hvs.append hws) hc hv (by simp [hlen, heffects, hve, hwe])
  | branch kind d => cases kind <;> cases h
  | _ => cases h

theorem popValue_eq_ok {v : StackValue} (h : (popValue place).run.run stack = (.ok v, rest)) :
    stack = v :: rest := by
  cases stack with
  | nil => cases h
  | cons w stack =>
    cases h
    rfl

theorem step_run {argc : UInt8}
    (hrun : (step l names (.callIndirect argc) place).run.run stack = (.ok r, rest)) :
    Moves (.run argc.toNat) [.construct argc.toNat] stack r rest := by
  obtain ⟨m, _, hm, hthen⟩ := run_bind_eq_ok.mp hrun
  obtain rfl := popValue_eq_ok hm
  cases m with
  | expr | constructed => cases hthen
  | method name =>
    obtain ⟨es, _, hes, hlast⟩ := run_bind_eq_ok.mp hthen
    obtain ⟨vs, rfl, hvs, hlen, heffects⟩ := takes_popMany _ _ _ _ _ hes
    obtain ⟨v, _, hv, hend⟩ := run_bind_eq_ok.mp hlast
    obtain rfl := popValue_eq_ok hv
    split at hend
    · split at hend
      · cases hend
        exact .run hvs hlen heffects
      · cases hend
    · cases hend

theorem step_drop (hrun : (step l names .pop place).run.run stack = (.ok r, rest)) :
    Moves .drop [] stack r rest := by
  obtain ⟨v, _, hv, hthen⟩ := run_bind_eq_ok.mp hrun
  obtain rfl := popValue_eq_ok hv
  split at hthen
  · obtain ⟨under, _, hget, hend⟩ := run_bind_eq_ok.mp hthen
    cases hget
    split at hend
    · cases hend
      exact .fuse
    · cases hend
  · cases hthen
    exact .drop rfl
  · cases hthen
    exact .drop rfl
  · cases hthen

/-- A step that succeeds follows the rule of its instruction. -/
theorem step_moves (hrun : (step l names i place).run.run stack = (.ok r, rest)) :
    Moves i.rule (l.effect? names i).toList stack r rest := by
  have hvalue {n : Nat} (hrule : i.rule = .value n) (hno : l.effect? names i = none) :
      Moves (.value n) (l.effect? names i).toList stack r rest := by
    obtain ⟨rfl, vs, e, below, rfl, rfl, hvs, he⟩ := step_value hrule _ _ _ hrun
    rw [hno]
    exact .value hvs he
  have hcall {n : Nat} (hrule : i.rule = .call n) :
      Moves (.call n) (l.effect? names i).toList stack r rest := by
    obtain ⟨rfl, vs, e, below, rfl, rfl, hvs, he⟩ := step_call hrule _ _ _ hrun
    exact .call hvs he
  have hsettle {n : Nat} (hrule : i.rule = .settle n) :
      Moves (.settle n) (l.effect? names i).toList stack r rest := by
    obtain ⟨vs, rfl, hvs, s, rfl, hs⟩ := step_settle hrule _ _ _ hrun
    exact .settle hvs hs
  cases i with
  | dup =>
    cases stack with
    | nil => cases hrun
    | cons v below =>
      cases hrun
      exact .copy
  | lookupMethod m =>
    obtain ⟨name, _, hsymbol, hthen⟩ := run_bind_eq_ok.mp hrun
    obtain ⟨rfl, -⟩ := looks_symbol m _ _ _ hsymbol
    cases hthen
    exact .lookup
  | callIndirect argc => exact step_run hrun
  | pop => exact step_drop hrun
  | lineNumber =>
    cases hrun
    exact .pass
  | callMethod | callDynamicMethod => exact step_method rfl hrun
  | allocateLocals | checkArgumentCount | branch => cases hrun
  | _ => first | exact hvalue rfl rfl | exact hcall rfl | exact hsettle rfl

end

end Lss
