import Mathlib.Data.List.Forall2
import Lss.Proofs.Stretches

/-!
# Code that uses what it calls once

Expressions stand for values on the stack, so a copy of a value is a copy of the calls that computed
it, and what waits on the stack moves behind a statement that is completed above it. Code is linear
where neither matters: of a value that was computed with calls, a copy serves only as the second
copy of a receiver, nothing else of that kind is dropped there, and no statement is completed while
such a value waits. Whether code is linear can be seen without reading it back. If it is, whatever
it is read back as calls and stores what it does, in the same order.
-/
namespace Lss

inductive Hold where
  /-- It was computed without calls. -/
  | plain
  | called
  /-- It is a copy of a value that was computed with calls. -/
  | copied
  /-- It was left by running a constructor. -/
  | built
deriving DecidableEq, Repr

namespace Hold

def ofCalled (c : Bool) : Hold := if c then called else plain

@[simp] theorem ofCalled_true : ofCalled true = called := rfl

@[simp] theorem ofCalled_false : ofCalled false = plain := rfl

def isQuiet : Hold → Bool
  | .plain | .copied => true
  | .called | .built => false

/-- Takes `n` operands, none of which may be a copy, and tells if any was computed with calls. -/
def take : Nat → List Hold → Option (Bool × List Hold)
  | 0, below => some (false, below)
  | n + 1, plain :: below => take n below
  | n + 1, called :: below => (take n below).map fun r => (true, r.2)
  | _, _ => none

def settle (n : Nat) (holds : List Hold) : Option (List Hold) := do
  let (_, below) ← take n holds
  if below.all isQuiet then some below else none

/-- The stack after a step by a rule, unless the step drops, repeats or delays a call. -/
def after : StackRule → List Hold → Option (List Hold)
  | .value n, holds => do
    let (c, below) ← take n holds
    return ofCalled c :: below
  | .call n, holds => do
    let (_, below) ← take n holds
    return called :: below
  | .method n, holds => do
    match ← take n holds with
    | (_, copy :: below) =>
      let (_, below) ← take 1 below
      if copy.isQuiet then some (called :: below) else none
    | _ => none
  | .settle n, holds => settle n holds
  | .copy, plain :: below => some (plain :: plain :: below)
  | .copy, called :: below => some (copied :: called :: below)
  | .copy, copied :: below => some (copied :: copied :: below)
  | .copy, _ => none
  | .lookup, holds => some (plain :: holds)
  | .run n, holds => do
    let (_, below) ← take 1 holds
    let (_, below) ← take n below
    let (_, below) ← take 1 below
    return built :: below
  | .drop, built :: _ :: below => some (called :: below)
  | .drop, holds => settle 1 holds
  | .pass, holds => some holds

def run (holds : List Hold) (code : Code) : Option (List Hold) :=
  code.foldlM (fun holds i => after i.rule holds) holds

@[simp] theorem run_nil (holds : List Hold) : run holds [] = some holds := rfl

variable {holds holds' : List Hold} {i : Instruction} {a b : Code}

theorem run_cons_eq_some : run holds (i :: a) = some holds' ↔
    ∃ between, after i.rule holds = some between ∧ run between a = some holds' := by
  simp [run, List.foldlM_cons, Option.bind_eq_some_iff]

theorem run_append_eq_some : run holds (a ++ b) = some holds' ↔
    ∃ between, run holds a = some between ∧ run between b = some holds' := by
  simp [run, List.foldlM_append, Option.bind_eq_some_iff]

end Hold

/-- Code that drops, repeats and delays no call, whatever it is read back as. -/
def Code.Linear (code : Code) : Prop := (Hold.run [] code).isSome

instance (code : Code) : Decidable code.Linear := inferInstanceAs (Decidable (_ = true))

open OperandStack

structure Hold.Fits (h : Hold) (v : StackValue) : Prop where
  plain : h = .plain → v.effects = []
  built : h = .built ↔ ∃ type arguments, v = .constructed type arguments

abbrev OperandStack.Held (holds : List Hold) (stack : OperandStack) : Prop :=
  List.Forall₂ Hold.Fits holds stack

namespace Hold

/-- The calls that wait in a value. Those of a copy wait in what it is a copy of. -/
def own : Hold → StackValue → List Effect
  | .copied, _ => []
  | _, v => v.effects

def waiting : List Hold → OperandStack → List Effect
  | h :: holds, v :: below => waiting holds below ++ h.own v
  | _, _ => []

variable {holds holds' : List Hold} {stack rest : OperandStack} {n : Nat} {c : Bool}

@[simp] theorem waiting_cons {h : Hold} {v : StackValue} :
    waiting (h :: holds) (v :: stack) = waiting holds stack ++ h.own v := rfl

@[simp] theorem own_plain (v : StackValue) : plain.own v = v.effects := rfl

@[simp] theorem own_called (v : StackValue) : called.own v = v.effects := rfl

@[simp] theorem own_copied (v : StackValue) : copied.own v = [] := rfl

@[simp] theorem own_built (v : StackValue) : built.own v = v.effects := rfl

theorem own_quiet {h : Hold} {v : StackValue} (hq : h.isQuiet) (hfits : h.Fits v) :
    h.own v = [] := by
  cases h with
  | plain => exact hfits.plain rfl
  | copied => rfl
  | called | built => cases hq

theorem fits_expr {h : Hold} (e : Expr) (hplain : h = .plain → e.effects = [])
    (hbuilt : h ≠ .built) :
    h.Fits (.expr e) :=
  ⟨hplain, ⟨fun h => absurd h hbuilt, fun ⟨_, _, h⟩ => nomatch h⟩⟩

/-- Operands take with them what waits in them. -/
theorem take_held (vs : OperandStack) (h : take n holds = some (c, holds')) (hvs : vs.length = n)
    (hheld : Held holds (vs ++ rest)) :
    Held holds' rest ∧ waiting holds (vs ++ rest) = waiting holds' rest ++ vs.effects ∧
      (c = false → vs.effects = []) := by
  induction vs generalizing n holds c with
  | nil =>
    obtain rfl : 0 = n := hvs
    cases h
    exact ⟨hheld, (List.append_nil _).symm, fun _ => rfl⟩
  | cons v vs ih =>
    obtain rfl : vs.length + 1 = n := hvs
    cases hheld with
    | @cons hold _ holds _ hfits hheld =>
      cases hold with
      | plain =>
        have htake : take vs.length holds = some (c, holds') := h
        obtain ⟨hrest, hwaiting, hplain⟩ := ih htake rfl hheld
        have hv := hfits.plain rfl
        exact ⟨hrest, by simp [hwaiting, hv], fun hc => by simp [hplain hc, hv]⟩
      | called =>
        obtain ⟨⟨c', below⟩, htake, hpair⟩ := Option.map_eq_some_iff.mp h
        cases hpair
        obtain ⟨hrest, hwaiting, -⟩ := ih htake rfl hheld
        exact ⟨hrest, by simp [hwaiting], Bool.noConfusion⟩
      | copied | built => cases h

theorem take_one {v : StackValue} (h : take 1 holds = some (c, holds'))
    (hheld : Held holds (v :: rest)) :
    Held holds' rest ∧ waiting holds (v :: rest) = waiting holds' rest ++ v.effects := by
  obtain ⟨hrest, hwaiting, -⟩ := take_held [v] h rfl hheld
  exact ⟨hrest, hwaiting⟩

theorem waiting_quiet (h : holds.all isQuiet) (hheld : Held holds stack) :
    waiting holds stack = [] := by
  induction hheld with
  | nil => rfl
  | cons hfits _ ih =>
    obtain ⟨hquiet, hall⟩ := List.forall_mem_cons.mp (List.all_eq_true.mp h)
    rw [waiting_cons, ih (List.all_eq_true.mpr hall), own_quiet hquiet hfits, List.append_nil]

theorem settle_held (vs : OperandStack) (h : settle n holds = some holds') (hvs : vs.length = n)
    (hheld : Held holds (vs ++ rest)) :
    Held holds' rest ∧ waiting holds (vs ++ rest) = vs.effects ∧ waiting holds' rest = [] := by
  obtain ⟨⟨c, below⟩, htake, hquiet⟩ := Option.bind_eq_some_iff.mp h
  obtain ⟨hrest, hwaiting, -⟩ := take_held _ htake hvs hheld
  dsimp only at hquiet
  split at hquiet
  · next hall =>
    cases hquiet
    have hnone := waiting_quiet hall hrest
    refine ⟨hrest, ?_, hnone⟩
    rw [hwaiting, hnone, List.nil_append]
  · cases hquiet

/-- What waits before a step, with the call or the store that the step is, is what the completed
statement does and what waits then. -/
theorem after_moves {rule : StackRule} {fx : List Effect} {r : Option Stmt}
    (h : after rule holds = some holds') (hheld : Held holds stack)
    (hmoves : Moves rule fx stack r rest) :
    Held holds' rest ∧
      waiting holds stack ++ fx = Stmt.allEffects r.toList ++ waiting holds' rest := by
  cases hmoves with
  | @value n vs e rest hvs he =>
    obtain ⟨⟨c, below⟩, htake, hsome⟩ := Option.bind_eq_some_iff.mp h
    cases hsome
    obtain ⟨hrest, hwaiting, hplain⟩ := take_held _ htake hvs.length_eq hheld
    refine ⟨.cons ?_ hrest, ?_⟩
    · cases c with
      | false => exact fits_expr e (fun _ => he.trans (hplain rfl)) nofun
      | true => exact fits_expr e nofun nofun
    · cases c <;> simp [hwaiting, he]
  | @call n vs e fx rest hvs he =>
    obtain ⟨⟨c, below⟩, htake, hsome⟩ := Option.bind_eq_some_iff.mp h
    cases hsome
    obtain ⟨hrest, hwaiting, -⟩ := take_held _ htake hvs.length_eq hheld
    exact ⟨.cons (fits_expr e nofun nofun) hrest, by simp [hwaiting, he]⟩
  | @method n vs copy receiver e fx rest hvs hcopy hreceiver he =>
    obtain ⟨⟨c, below⟩, htake, hsome⟩ := Option.bind_eq_some_iff.mp h
    obtain ⟨hbelow, hwaiting, -⟩ := take_held _ htake hvs.length_eq hheld
    cases hbelow with
    | @cons hold _ below _ hfits hbelow =>
      obtain ⟨⟨c', below'⟩, htake', hquiet⟩ := Option.bind_eq_some_iff.mp hsome
      obtain ⟨hrest, hwaiting'⟩ := take_one htake' hbelow
      dsimp only at hquiet
      split at hquiet
      · next hq =>
        cases hquiet
        refine ⟨.cons (fits_expr e nofun nofun) hrest, ?_⟩
        simp [hwaiting, hwaiting', own_quiet hq hfits, he]
      · cases hquiet
  | settle hvs hs =>
    obtain ⟨hrest, hwaiting, hnone⟩ := settle_held _ h hvs.length_eq hheld
    exact ⟨hrest, by simp [hwaiting, hnone, hs]⟩
  | copy =>
    cases hheld with
    | @cons hold _ below _ hfits hheld =>
      cases hold with
      | plain =>
        cases h
        exact ⟨.cons hfits (.cons hfits hheld), by simp [hfits.plain rfl]⟩
      | called =>
        cases h
        -- a copy is no less an expression than what it is a copy of
        have hcopied : copied.Fits _ := ⟨nofun, nofun, fun hv => nomatch hfits.built.mpr hv⟩
        exact ⟨.cons hcopied (.cons hfits hheld), by simp⟩
      | copied =>
        cases h
        exact ⟨.cons hfits (.cons hfits hheld), by simp⟩
      | built => cases h
  | lookup =>
    cases h
    exact ⟨.cons ⟨fun _ => rfl, by simp⟩ hheld, by simp⟩
  | @run n vs name type type' arguments rest hvs hlen he =>
    obtain ⟨⟨_, below⟩, htop, hsome⟩ := Option.bind_eq_some_iff.mp h
    obtain ⟨⟨_, below'⟩, htake, hsome'⟩ := Option.bind_eq_some_iff.mp hsome
    obtain ⟨⟨_, below''⟩, hunder, hlast⟩ := Option.bind_eq_some_iff.mp hsome'
    cases hlast
    obtain ⟨hbelow, hmethod⟩ := take_one htop hheld
    obtain ⟨hbelow', hwaiting, -⟩ := take_held _ htake hvs.length_eq hbelow
    obtain ⟨hrest, hobject⟩ := take_one hunder hbelow'
    refine ⟨.cons ⟨nofun, fun _ => ⟨_, _, rfl⟩, fun _ => rfl⟩ hrest, ?_⟩
    simp [hmethod, hwaiting, hobject, he, hlen, Expr.effects]
  | fuse =>
    cases hheld with
    | cons hfits hheld =>
      obtain rfl := hfits.built.mpr ⟨_, _, rfl⟩
      cases hheld with
      | @cons hold _ below _ _ hheld =>
        cases h
        refine ⟨.cons (fits_expr _ nofun nofun) hheld, ?_⟩
        cases hold <;> simp [Expr.effects]
  | @drop e s rest hs =>
    have hsettle : settle 1 holds = some holds' := by
      cases hheld with
      | @cons hold _ below _ hfits _ =>
        cases hold with
        | built =>
          obtain ⟨_, _, hv⟩ := hfits.built.mp rfl
          cases hv
        | plain | called | copied => exact h
    obtain ⟨hrest, hwaiting, hnone⟩ := settle_held [.expr e] hsettle rfl hheld
    exact ⟨hrest, by simpa [hnone, hs] using hwaiting⟩
  | pass =>
    cases h
    exact ⟨hheld, by simp⟩

end Hold

namespace Library

open Stacked

variable {l : Library} {names : SlotNames} {code : Code} {stack above : OperandStack}
  {ss : List Stmt} {holds holds' : List Hold}

/-- A test takes the only value. -/
theorem tested {v : StackValue} {c : Expr} {place : Nat} (hv : valueOf place v = .ok c)
    (h : Hold.settle 1 holds = some holds') (hheld : Held holds [v]) :
    holds' = [] ∧ Hold.waiting holds [v] = c.effects := by
  obtain ⟨hrest, hwaiting, -⟩ := Hold.settle_held [v] h rfl hheld
  cases hrest
  exact ⟨rfl, hwaiting.trans (valueOf_eq_ok hv).2.symm⟩

/-- What waits before code and what the code does is what its statements do and what waits behind
them. -/
theorem Decodes.waiting (h : l.Decodes names code stack ss above)
    (hrun : Hold.run holds code = some holds') (hheld : Held holds stack) :
    Held holds' above ∧ Hold.waiting holds stack ++ l.effects names code =
      Stmt.allEffects ss ++ Hold.waiting holds' above := by
  -- a stretch that starts and ends on an empty stack
  have hclosed {a : Code} {body : List Stmt} {between : List Hold}
      (ih : ∀ {holds holds'}, Hold.run holds a = some holds' → Held holds [] →
        Held holds' [] ∧ Hold.waiting holds [] ++ l.effects names a =
          Stmt.allEffects body ++ Hold.waiting holds' [])
      (ha : Hold.run [] a = some between) :
      between = [] ∧ l.effects names a = Stmt.allEffects body := by
    obtain ⟨hnil, heffects⟩ := ih ha .nil
    cases hnil
    exact ⟨rfl, by simpa [Hold.waiting] using heffects⟩
  induction h generalizing holds holds' with
  | done =>
    cases hrun
    exact ⟨hheld, by simp⟩
  | step hmoves _ ih =>
    obtain ⟨between, hafter, hcode⟩ := Hold.run_cons_eq_some.mp hrun
    obtain ⟨hbetween, hmoved⟩ := Hold.after_moves hafter hheld hmoves
    obtain ⟨habove, hread⟩ := ih hcode hbetween
    refine ⟨habove, ?_⟩
    rw [effects_cons, ← List.append_assoc, hmoved, List.append_assoc, hread, Stmt.allEffects_append,
      List.append_assoc]
  | skip _ ih => exact ih hrun hheld
  | if_ hv _ _ ihbody ih =>
    obtain ⟨_, htest, hthen⟩ := Hold.run_cons_eq_some.mp hrun
    obtain ⟨rfl, hwaiting⟩ := tested hv htest hheld
    obtain ⟨_, ha, hcode⟩ := Hold.run_append_eq_some.mp hthen
    obtain ⟨rfl, hbody⟩ := hclosed ihbody ha
    obtain ⟨habove, hrest⟩ := ih hcode .nil
    simp only [Hold.waiting, List.nil_append] at hrest
    exact ⟨habove, by simp [hwaiting, hbody, hrest, Stmt.effects]⟩
  | ifElse hv _ _ _ ihbody iharm ih =>
    obtain ⟨_, htest, hthen⟩ := Hold.run_cons_eq_some.mp hrun
    obtain ⟨rfl, hwaiting⟩ := tested hv htest hheld
    obtain ⟨_, ha, helse⟩ := Hold.run_append_eq_some.mp hthen
    obtain ⟨rfl, hbody⟩ := hclosed ihbody ha
    obtain ⟨_, hb, hcode⟩ := Hold.run_append_eq_some.mp helse
    obtain ⟨rfl, harm⟩ := hclosed iharm hb
    obtain ⟨habove, hrest⟩ := ih hcode .nil
    simp only [Hold.waiting, List.nil_append] at hrest
    exact ⟨habove, by simp [hwaiting, hbody, harm, hrest, Stmt.effects]⟩
  | while_ hv _ _ _ ihtest ihbody ih =>
    cases hheld
    obtain ⟨_, htest, hthen⟩ := Hold.run_append_eq_some.mp hrun
    obtain ⟨hheld, htesting⟩ := ihtest htest .nil
    obtain ⟨_, hbranch, hloop⟩ := Hold.run_cons_eq_some.mp hthen
    obtain ⟨rfl, hwaiting⟩ := tested hv hbranch hheld
    obtain ⟨_, ha, hcode⟩ := Hold.run_append_eq_some.mp hloop
    obtain ⟨rfl, hbody⟩ := hclosed ihbody ha
    obtain ⟨habove, hrest⟩ := ih hcode .nil
    simp only [Hold.waiting, List.nil_append, Stmt.allEffects_nil] at hrest htesting
    exact ⟨habove, by simp [Hold.waiting, htesting, hwaiting, hbody, hrest, Stmt.effects]⟩
  | doWhile hv _ _ ihbody ih =>
    cases hheld
    obtain ⟨_, ha, hthen⟩ := Hold.run_append_eq_some.mp hrun
    obtain ⟨hheld, hbody⟩ := ihbody ha .nil
    obtain ⟨_, hbranch, hcode⟩ := Hold.run_cons_eq_some.mp hthen
    obtain ⟨rfl, hwaiting⟩ := tested hv hbranch hheld
    obtain ⟨habove, hrest⟩ := ih hcode .nil
    simp only [Hold.waiting, List.nil_append] at hrest hbody
    exact ⟨habove, by simp [Hold.waiting, hwaiting, hbody, hrest, Stmt.effects]⟩

/-- Linear code is read back as statements that call and store what it does, in the same order. -/
theorem Decodes.effects_eq (h : l.Decodes names code [] ss []) (hlinear : code.Linear) :
    Stmt.allEffects ss = l.effects names code := by
  obtain ⟨_, hrun⟩ := Option.isSome_iff_exists.mp hlinear
  obtain ⟨hnil, heffects⟩ := h.waiting hrun .nil
  cases hnil
  simpa [Hold.waiting] using heffects.symm

/-- A receiver may be copied for its call. -/
example : Code.Linear [.callFunction 0 0, .dup, .callMethod ⟨0⟩ 0, .pop] ∧
    ¬ Code.Linear [.callFunction 0 0, .dup, .binary .add, .return_] := by
  decide

end Library

end Lss
