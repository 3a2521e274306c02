import Lss.Proofs.LinearCode
import Lss.Proofs.Restored

/-!
# Calls and stores are conserved

No code is read back with a store that is lost, repeated or out of order, or with a call that it
does not make. Calls are kept in number and in order where code is linear, and compiled code is.
-/
namespace Lss

open OperandStack

theorem OperandStack.filter_isStore_effects (stack : OperandStack) :
    stack.effects.filter Effect.isStore = [] := by
  induction stack with
  | nil => rfl
  | cons v stack ih =>
    have hv : v.effects.filter Effect.isStore = [] := by
      cases v with
      | expr e => exact e.filter_isStore_effects
      | method => rfl
      | constructed type es => simp [Expr.filter_isStore_allEffects, Effect.isStore]
    simp [ih, hv]

namespace Moves

variable {rule : StackRule} {fx : List Effect} {stack rest : OperandStack} {r : Option Stmt}

/-- A store is a statement, and nothing else is. -/
theorem filter_isStore (h : Moves rule fx stack r rest) :
    (Stmt.allEffects r.toList).filter Effect.isStore = fx.filter Effect.isStore := by
  cases h with
  | value | copy | lookup | run | fuse | pass => rfl
  | call hvs he =>
    have hno := congrArg (List.filter Effect.isStore) he
    rw [Expr.filter_isStore_effects, List.filter_append] at hno
    exact (List.append_eq_nil_iff.mp hno.symm).2.symm
  | method hvs hcopy hreceiver he =>
    have hno := congrArg (List.filter Effect.isStore) he
    rw [Expr.filter_isStore_effects, List.filter_append] at hno
    exact (List.append_eq_nil_iff.mp hno.symm).2.symm
  | settle hvs hs => simp [hs, filter_isStore_effects]
  | drop hs => simp [hs, Expr.filter_isStore_effects]

/-- What is neither on the stack nor done by the step is in no statement and not on the stack
then. -/
theorem not_mem_effects (h : Moves rule fx stack r rest) {x : Effect} (hx : x ∉ stack.effects)
    (hfx : x ∉ fx) : x ∉ Stmt.allEffects r.toList ∧ x ∉ rest.effects := by
  cases h with
  | value hvs he | call hvs he | method hvs hcopy hreceiver he => simp_all
  | settle hvs hs | drop hs => simp_all
  | copy | lookup | pass => simp_all
  | run hvs hlen he => simp_all
  | fuse => simp_all [Expr.effects]

end Moves

namespace Library

open Stacked

variable {l : Library} {names : SlotNames} {code : Code} {stack above : OperandStack}
  {ss : List Stmt}

theorem Decodes.filter_isStore (h : l.Decodes names code stack ss above) :
    (Stmt.allEffects ss).filter Effect.isStore = (l.effects names code).filter Effect.isStore := by
  induction h with
  | done => rfl
  | step hmoves _ ih => simp [effects_cons, hmoves.filter_isStore, ih]
  | skip _ ih => simpa using ih
  | if_ _ _ _ ihbody ih =>
    simp [Stmt.effects, Expr.filter_isStore_effects, ihbody, ih]
  | ifElse _ _ _ _ ihbody iharm ih =>
    simp [Stmt.effects, Expr.filter_isStore_effects, ihbody, iharm, ih]
  | while_ _ _ _ _ ihtest ihbody ih =>
    simp [Stmt.effects, Expr.filter_isStore_effects, ← ihtest, ihbody, ih]
  | doWhile _ _ _ ihbody ih => simp [Stmt.effects, Expr.filter_isStore_effects, ihbody, ih]

theorem Decodes.not_mem_effects (h : l.Decodes names code stack ss above) {x : Effect}
    (hx : x ∉ stack.effects) (hcode : x ∉ l.effects names code) :
    x ∉ Stmt.allEffects ss ∧ x ∉ above.effects := by
  have hnil : x ∉ OperandStack.effects [] := List.not_mem_nil
  have htested {place : Nat} {v : StackValue} {c : Expr} (hv : valueOf place v = .ok c)
      (hx : x ∉ OperandStack.effects [v]) : x ∉ c.effects := by
    rw [(valueOf_eq_ok hv).2]
    simpa using hx
  induction h with
  | done => exact ⟨List.not_mem_nil, hx⟩
  | step hmoves _ ih =>
    simp only [effects_cons, List.mem_append, not_or] at hcode
    obtain ⟨hs, hrest⟩ := hmoves.not_mem_effects hx hcode.1
    obtain ⟨hss, habove⟩ := ih hrest hcode.2
    exact ⟨by simp [hs, hss], habove⟩
  | skip _ ih => exact ih hx hcode
  | if_ hv _ _ ihbody ih =>
    simp only [effects_branch, effects_append, List.mem_append, not_or] at hcode
    obtain ⟨ha, hrest⟩ := hcode
    obtain ⟨hbody, -⟩ := ihbody hnil ha
    obtain ⟨hss, habove⟩ := ih hnil hrest
    exact ⟨by simp [Stmt.effects, htested hv hx, hbody, hss], habove⟩
  | ifElse hv _ _ _ ihbody iharm ih =>
    simp only [effects_branch, effects_append, List.mem_append, not_or] at hcode
    obtain ⟨ha, hb, hrest⟩ := hcode
    obtain ⟨hbody, -⟩ := ihbody hnil ha
    obtain ⟨harm, -⟩ := iharm hnil hb
    obtain ⟨hss, habove⟩ := ih hnil hrest
    exact ⟨by simp [Stmt.effects, htested hv hx, hbody, harm, hss], habove⟩
  | while_ hv _ _ _ ihtest ihbody ih =>
    simp only [effects_branch, effects_append, List.mem_append, not_or] at hcode
    obtain ⟨htest, ha, hrest⟩ := hcode
    obtain ⟨-, hvalue⟩ := ihtest hnil htest
    obtain ⟨hbody, -⟩ := ihbody hnil ha
    obtain ⟨hss, habove⟩ := ih hnil hrest
    exact ⟨by simp [Stmt.effects, htested hv hvalue, hbody, hss], habove⟩
  | doWhile hv _ _ ihbody ih =>
    simp only [effects_branch, effects_append, List.mem_append, not_or] at hcode
    obtain ⟨ha, hrest⟩ := hcode
    obtain ⟨hbody, hvalue⟩ := ihbody hnil ha
    obtain ⟨hss, habove⟩ := ih hnil hrest
    exact ⟨by simp [Stmt.effects, htested hv hvalue, hbody, hss], habove⟩

def decode (l : Library) (names : SlotNames) (code : Code) : Except DecompileError (List Stmt) :=
  (Body.ofCode l names code).bind Body.statements

theorem decodes_of_decode (h : l.decode names code = .ok ss) : l.Decodes names code [] ss [] := by
  obtain ⟨b, hb, hs⟩ := bind_ok h
  exact Body.decodes_of_statements hb hs

end Library

namespace Container

def bodies (c : Container) : List Code :=
  (c.functions.map (·.code) ++ c.classes.flatMap fun k => k.methods.map (·.code)).map
    fun code => code.dropWhile Instruction.isPrologue

theorem Grown.linear {c : Container} {sources : List SourceUnit} (h : Grown sources c) {code : Code}
    (hcode : code ∈ c.bodies) : code.Linear := by
  obtain ⟨whole, hwhole, rfl⟩ := List.mem_map.mp hcode
  rcases List.mem_append.mp hwhole with hmem | hmem
  · obtain ⟨e, he, rfl⟩ := List.mem_map.mp hmem
    obtain ⟨s, -, hspec⟩ := h.holds.exists_bears he
    exact hspec.code.linear
  · obtain ⟨k, hk, hmem⟩ := List.mem_flatMap.mp hmem
    obtain ⟨e, he, rfl⟩ := List.mem_map.mp hmem
    obtain ⟨m, -, -, hcomp⟩ := (h.holds.classes k hk).methods e he
    exact hcomp.linear

variable {c : Container} {names : SlotNames} {code : Code} {ss : List Stmt}

/-- Whatever code is read back, its stores are kept in number and in order, and nothing is called or
stored to that the code does not call or store to. If it is linear, all its calls and stores are
kept in number and in order; and code that was compiled is linear. -/
theorem decode_conserves (h : (Library.ofContainer c).decode names code = .ok ss) :
    (Stmt.allEffects ss).filter Effect.isStore =
        ((Library.ofContainer c).effects names code).filter Effect.isStore ∧
      Stmt.allEffects ss ⊆ (Library.ofContainer c).effects names code ∧
      (code.Linear → Stmt.allEffects ss = (Library.ofContainer c).effects names code) ∧
      ∀ sources, Grown sources c → code ∈ c.bodies →
        Stmt.allEffects ss = (Library.ofContainer c).effects names code := by
  have hread := Library.decodes_of_decode h
  refine ⟨hread.filter_isStore, fun x hx => ?_, hread.effects_eq, fun sources hc hcode => ?_⟩
  · refine Decidable.byContradiction fun hno => ?_
    exact (hread.not_mem_effects List.not_mem_nil hno).1 hx
  · exact hread.effects_eq (hc.linear hcode)

theorem eq_ok_of_toOption {ε α : Type} {r : Except ε α} {a : α} (h : r.toOption = some a) :
    r = .ok a := by
  cases r with
  | error => cases h
  | ok => exact congrArg Except.ok (Option.some.inj h)

def chained : SourceUnit where
  functions := [⟨.identifier "next", [], ⟨[], .synthetic⟩⟩, ⟨.identifier "main", [], ⟨[
    .assign (.operation (.call (.name "next") [] .synthetic) (.access .member) (.name "item"))
      (.call (.operation (.call (.name "next") [] .synthetic) (.access .member) (.name "fill"))
        [.call (.name "next") [] .synthetic] .synthetic)], .synthetic⟩⟩]

theorem decode_conserves_chained :
    ∃ c code ss, ((ofSettings {}).compile {} [chained]).container = some c ∧ code ∈ c.bodies ∧
      (Library.ofContainer c).decode {} code = .ok ss ∧
      Stmt.allEffects ss = (Library.ofContainer c).effects {} code ∧
      Stmt.allEffects ss = [.call (.variable "next") 0, .call (.variable "next") 0,
        .call (.variable "next") 0, .call (.member "fill") 1, .store (.member "item")] := by
  have hrun : ((ofSettings {}).compile {} [chained]).container.any fun c => c.bodies.any fun code =>
      ((Library.ofContainer c).decode {} code).toOption.any fun ss =>
        Stmt.allEffects ss == [.call (.variable "next") 0, .call (.variable "next") 0,
          .call (.variable "next") 0, .call (.member "fill") 1, .store (.member "item")] := by
    decide +kernel
  obtain ⟨c, hc, hbodies⟩ := (Option.any_eq_true _ _).mp hrun
  obtain ⟨code, hcode, hdecode⟩ := List.any_eq_true.mp hbodies
  obtain ⟨ss, hss, heffects⟩ := (Option.any_eq_true _ _).mp hdecode
  have hok := eq_ok_of_toOption hss
  have hgrown : Grown [chained] c := .session {} [chained] (.start {}) hc
  exact ⟨c, code, ss, hc, hcode, hok, (decode_conserves hok).2.2.2 _ hgrown hcode,
    eq_of_beq heffects⟩

def twice : Code := [.callFunction 0 0, .dup, .binary .add, .return_]

/-- A method is called, and what another call gave is dropped for the second copy of the
receiver. -/
def never : Code := [.callFunction 0 0, .callFunction 2 0, .callMethod ⟨0⟩ 0, .return_]

def careless : Container where
  symbols := .ofList ["m"]
  functions := [⟨"f", 0, [.pushNothing, .return_]⟩, ⟨"g", 0, [.pushNothing, .return_]⟩,
    ⟨"twice", 0, twice⟩, ⟨"never", 0, never⟩]

/-- A call is read back twice, and another one not at all. -/
theorem decode_conserves_careless :
    (twice ∈ careless.bodies ∧ ∃ ss, (Library.ofContainer careless).decode {} twice = .ok ss ∧
      (Library.ofContainer careless).effects {} twice = [.call (.variable "f") 0] ∧
      Stmt.allEffects ss = [.call (.variable "f") 0, .call (.variable "f") 0]) ∧
    never ∈ careless.bodies ∧ ∃ ss, (Library.ofContainer careless).decode {} never = .ok ss ∧
      (Library.ofContainer careless).effects {} never =
        [.call (.variable "f") 0, .call (.variable "g") 0, .call (.member "m") 0] ∧
      Stmt.allEffects ss = [.call (.variable "f") 0, .call (.member "m") 0] := by
  have hrun (code : Code) (fx : List Effect)
      (h : ((Library.ofContainer careless).decode {} code).toOption.map Stmt.allEffects = some fx) :
      ∃ ss, (Library.ofContainer careless).decode {} code = .ok ss ∧ Stmt.allEffects ss = fx := by
    obtain ⟨ss, hss, heffects⟩ := Option.map_eq_some_iff.mp h
    exact ⟨ss, eq_ok_of_toOption hss, heffects⟩
  obtain ⟨ss, htwice, hss⟩ := hrun twice [.call (.variable "f") 0, .call (.variable "f") 0]
    (by decide +kernel)
  obtain ⟨ts, hnever, hts⟩ := hrun never [.call (.variable "f") 0, .call (.member "m") 0]
    (by decide +kernel)
  exact ⟨⟨by decide, ss, htwice, by decide +kernel, hss⟩, by decide, ts, hnever,
    by decide +kernel, hts⟩

end Container

end Lss
