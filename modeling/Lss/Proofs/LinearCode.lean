import Lss.Proofs.Compiled
import Lss.Proofs.EmitsBody
import Lss.Proofs.Linear
import Lss.Proofs.Relinked

/-!
# Compiled code is linear

Whatever is lowered, the code of an expression computes one value that is no copy, on top of any
stack, and the code of a statement takes all values that it computes. Receivers are copied, but only
for the calls that drop the copy.
-/
namespace Lss

namespace Hold

def Computes (n : Nat) (code : Code) : Prop :=
  ∀ holds, ∃ cs : List Bool, cs.length = n ∧ run holds code = some (cs.map ofCalled ++ holds)

def Settles (code : Code) : Prop := run [] code = some []

variable {n m : Nat} {a b : Code} {i : Instruction}

theorem take_computed (cs : List Bool) (holds : List Hold) :
    ∃ c, take cs.length (cs.map ofCalled ++ holds) = some (c, holds) := by
  induction cs with
  | nil => exact ⟨false, rfl⟩
  | cons c cs ih =>
    obtain ⟨d, hd⟩ := ih
    cases c with
    | false => exact ⟨d, hd⟩
    | true => exact ⟨true, by simp [ofCalled, take, hd]⟩

theorem take_computed_one (c : Bool) (holds : List Hold) :
    ∃ d, take 1 (ofCalled c :: holds) = some (d, holds) :=
  take_computed [c] holds

theorem run_singleton (holds : List Hold) (i : Instruction) :
    run holds [i] = after i.rule holds := by
  simp [run]

namespace Computes

theorem nil : Computes 0 [] := fun _ => ⟨[], rfl, rfl⟩

theorem append (ha : Computes n a) (hb : Computes m b) : Computes (n + m) (a ++ b) := by
  intro holds
  obtain ⟨cs, rfl, hcs⟩ := ha holds
  obtain ⟨ds, rfl, hds⟩ := hb (cs.map ofCalled ++ holds)
  refine ⟨ds ++ cs, by simp [Nat.add_comm], run_append_eq_some.mpr ⟨_, hcs, ?_⟩⟩
  simpa using hds

/-- A value is computed from all those before. -/
theorem value (ha : Computes n a) (hi : i.rule = .value n) : Computes 1 (a ++ [i]) := by
  intro holds
  obtain ⟨cs, rfl, hcs⟩ := ha holds
  obtain ⟨c, htake⟩ := take_computed cs holds
  refine ⟨[c], rfl, run_append_eq_some.mpr ⟨_, hcs, ?_⟩⟩
  simp [run_singleton, hi, after, htake]

theorem call (ha : Computes n a) (hi : i.rule = .call n) : Computes 1 (a ++ [i]) := by
  intro holds
  obtain ⟨cs, rfl, hcs⟩ := ha holds
  obtain ⟨c, htake⟩ := take_computed cs holds
  refine ⟨[true], rfl, run_append_eq_some.mpr ⟨_, hcs, ?_⟩⟩
  simp [run_singleton, hi, after, htake]

/-- The copy of a receiver is dropped by the call. -/
theorem method (ha : Computes 1 a) (hb : Computes n b) (hi : i.rule = .method n) :
    Computes 1 (a ++ [Instruction.dup] ++ b ++ [i]) := by
  intro holds
  obtain ⟨cs, hlen, ha⟩ := ha holds
  obtain ⟨c, rfl⟩ := List.length_eq_one_iff.mp hlen
  obtain ⟨copy, hquiet, hcopy⟩ : ∃ copy : Hold, copy.isQuiet ∧
      after .copy (ofCalled c :: holds) = some (copy :: ofCalled c :: holds) := by
    cases c with
    | false => exact ⟨plain, rfl, rfl⟩
    | true => exact ⟨copied, rfl, rfl⟩
  obtain ⟨ds, rfl, hds⟩ := hb (copy :: ofCalled c :: holds)
  obtain ⟨d, htake⟩ := take_computed ds (copy :: ofCalled c :: holds)
  obtain ⟨d', htake'⟩ := take_computed_one c holds
  refine ⟨[true], rfl, ?_⟩
  simp only [run_append_eq_some, run_singleton]
  refine ⟨_, ⟨_, ⟨_, ha, hcopy⟩, hds⟩, ?_⟩
  simp [hi, after, htake, htake', hquiet]

theorem construct {argc : UInt8} {s t : SymbolId} (h : Computes argc.toNat a) :
    Computes 1 ([.createObject s, .dup] ++ a
      ++ [Instruction.lookupMethod t, .callIndirect argc, .pop]) := by
  intro holds
  obtain ⟨cs, hlen, ha⟩ := h (plain :: plain :: holds)
  obtain ⟨c, htake⟩ := take_computed cs (plain :: plain :: holds)
  refine ⟨[true], rfl, ?_⟩
  have hobject : run holds [.createObject s, .dup] = some (plain :: plain :: holds) := rfl
  refine run_append_eq_some.mpr ⟨_, run_append_eq_some.mpr ⟨_, hobject, ha⟩, ?_⟩
  have hrule : (Instruction.callIndirect argc).rule = .run cs.length :=
    congrArg StackRule.run hlen.symm
  have hafter : after (.run cs.length) (plain :: (cs.map ofCalled ++ plain :: plain :: holds)) =
      some (built :: plain :: holds) := by
    simp [after, take, htake]
  refine run_cons_eq_some.mpr ⟨_, rfl, run_cons_eq_some.mpr ⟨built :: plain :: holds, ?_, rfl⟩⟩
  rw [hrule]
  exact hafter

theorem one (hi : i.rule = .value 0) : Computes 1 [i] := nil.value hi

end Computes

namespace Settles

theorem nil : Settles [] := rfl

theorem append (ha : Settles a) (hb : Settles b) : Settles (a ++ b) :=
  run_append_eq_some.mpr ⟨[], ha, hb⟩

theorem pass (hi : i.rule = .pass) : Settles [i] := by
  rw [Settles, run_singleton, hi]
  rfl

theorem settle (ha : Computes n a) (hi : i.rule = .settle n) : Settles (a ++ [i]) := by
  obtain ⟨cs, rfl, hcs⟩ := ha []
  obtain ⟨c, htake⟩ := take_computed cs []
  rw [List.append_nil] at hcs htake
  refine run_append_eq_some.mpr ⟨_, hcs, ?_⟩
  simp [run_singleton, hi, after, Hold.settle, htake]

theorem drop (ha : Computes 1 a) : Settles (a ++ [Instruction.pop]) := by
  obtain ⟨cs, hlen, ha⟩ := ha []
  obtain ⟨c, rfl⟩ := List.length_eq_one_iff.mp hlen
  refine run_append_eq_some.mpr ⟨_, ha, ?_⟩
  cases c <;> rfl

theorem linear (h : Settles a) : a.Linear := by
  rw [Code.Linear, h]
  rfl

end Settles

end Hold

open Hold

section

variable {env : Env} {scopes u : Scopes}

theorem Instruction.rule_of_isConstant {i : Instruction} (h : i.isConstant) :
    i.rule = .value 0 := by
  cases i <;> first | rfl | cases h

mutual

theorem Expr.Emits.computes {frame : Option Nat} {e : Expr} {code : Code} :
    Expr.Emits env scopes frame e code → Computes 1 code
  | .literal hi => .one (Instruction.rule_of_isConstant hi)
  | .this _ _ | .slot _ _ | .global _ _ _ | .thisMember _ _ _ _ | .gameVariable _ | .create _ =>
    .one rfl
  | .element _ _ _ h => by
    rw [List.append_cons]
    exact (h.computes.append (.one rfl)).value rfl
  | .grouping h => h.computes
  | .unary _ h | .property _ _ h | .member _ _ _ h | .dynamicGameVariable _ h =>
    h.computes.value rfl
  | .dynamicMember _ h k | .binary _ h k | .index h k => (h.computes.append k.computes).value rfl
  | .array hlen h =>
    h.computes.value
      (congrArg StackRule.value (UInt16.toNat_ofNat_of_lt' (Nat.lt_succ_of_le hlen)))
  | .call hlen _ h | .callThisMethod hlen _ _ _ h | .callGame hlen _ h =>
    h.computes.call (congrArg StackRule.call (toNat_argc (Nat.not_lt.mpr hlen)))
  | .callArray hlen _ _ _ h k =>
    (h.computes.append k.computes).call (congrArg StackRule.call (by rw [hlen, Nat.add_comm]))
  | .callMethod hlen _ _ _ h k =>
    h.computes.method k.computes (congrArg StackRule.method (toNat_argc (Nat.not_lt.mpr hlen)))
  | .callDynamicMethod hlen _ h k l => by
    have hcount := toNat_argc (Nat.not_lt.mpr hlen)
    have hname := k.computes.append l.computes
    rw [Nat.add_comm, ← hcount] at hname
    simpa using h.computes.method hname (i := .callDynamicMethod _) rfl
  | .callDynamicGame hlen _ h k => by
    have hcount := toNat_argc (Nat.not_lt.mpr hlen)
    refine (h.computes.append k.computes).call (congrArg StackRule.call ?_)
    rw [hcount, Nat.add_comm]
  | .construct hlen h => by
    have := toNat_argc (Nat.not_lt.mpr hlen)
    exact Computes.construct (by rw [this]; exact h.computes)

theorem Expr.EmitsAll.computes {frame : Option Nat} {es : List Expr} {code : Code} :
    Expr.EmitsAll env scopes frame es code → Computes es.length code
  | .nil => .nil
  | .cons h k => by
    rw [List.length_cons, Nat.add_comm]
    exact h.computes.append k.computes

end

theorem Hold.Settles.marked {code : Code} (h : Settles code) (s : Stmt) :
    Settles (lineMark env s ++ code) := by
  refine .append ?_ h
  unfold lineMark
  split
  · exact .pass rfl
  · exact .nil

/-- A branch in front of what it skips. -/
theorem Hold.Settles.skipped {code : Code} (h : Settles code) (d : Int16) :
    Settles (.branch .always d :: code) :=
  (Settles.pass rfl : Settles [.branch .always d]).append h

/-- A test in front of what it guards. -/
theorem Hold.Computes.guard {test code : Code} {i : Instruction} (h : Computes 1 test)
    (k : Settles code) (hi : i.rule = .settle 1) : Settles (test ++ i :: code) := by
  rw [List.append_cons]
  exact (Settles.settle h hi).append k

theorem settles_foreachCode {i m : Slot} {items body : Code} {out back : Int16}
    (h : Computes 1 items) (k : Settles body) : Settles (foreachCode i m items body out back) := by
  have hstart : Settles [.pushZero, .setVariable i] := rfl
  have hlast : Settles (items
      ++ [Instruction.property .length, .pushInt8 1, .binary .sub, .setVariable m]) := by
    obtain ⟨cs, hlen, hcs⟩ := h []
    obtain ⟨c, rfl⟩ := List.length_eq_one_iff.mp hlen
    exact run_append_eq_some.mpr ⟨_, hcs, by cases c <;> rfl⟩
  have htest : Computes 1 [.getVariable m, .getVariable i, .binary .greaterEqual] :=
    fun holds => ⟨[false], rfl, rfl⟩
  have hnext : Settles [.getVariable i, .pushInt8 1, .binary .add, .setVariable i] := rfl
  unfold foreachCode
  rw [List.append_assoc _ items]
  exact .append (.append hstart hlast)
    (.append (htest.guard (k.append hnext) rfl) (Settles.nil.skipped back))

mutual

theorem Stmt.Emits.settles {scopes u : Scopes} {s : Stmt} {code : Code} :
    Stmt.Emits env scopes s code u → Settles code
  | .block h => h.settles
  | .expr h => .drop h.computes
  | .varNothing _ | .returnNothing => rfl
  | .var h _ | .assignLocal _ _ h | .assignGlobal _ _ _ h | .assignThisMember _ _ _ h
  | .assignGame _ h | .return_ h => .settle h.computes rfl
  | .assignMember _ _ h k => .settle (h.computes.append k.computes) rfl
  | .assignDynamicMember _ h k l | .assignElement h k l =>
    .settle ((h.computes.append k.computes).append l.computes) rfl
  | .always h => h.settles.marked _
  | .if_ h k => h.computes.guard (k.settles.marked _) rfl
  | .ifElse h k l =>
    .append (h.computes.guard (k.settles.marked _) rfl) ((l.settles.marked _).skipped _)
  | .while_ h k => .append (h.computes.guard (k.settles.marked _) rfl) (Settles.nil.skipped _)
  | .doWhile h k => by
    rw [List.append_assoc]
    exact .append (h.settles.marked _) (k.computes.guard .nil rfl)
  | .foreach _ h k => settles_foreachCode h.computes (k.settles.marked _)

theorem Stmt.EmitsAll.settles {scopes u : Scopes} {ss : List Stmt} {code : Code} :
    Stmt.EmitsAll env scopes ss code u → Settles code
  | .nil => .nil
  | .cons h k => (h.settles.marked _).append k.settles

end

end

theorem Hold.Settles.of_isPrologue {code : Code} (h : ∀ i ∈ code, i.isPrologue) : Settles code := by
  induction code with
  | nil => exact .nil
  | cons i code ih =>
    obtain ⟨hi, hcode⟩ := List.forall_mem_cons.mp h
    have hpass : i.rule = .pass := by
      cases i <;> first | rfl | cases hi
    exact (Settles.pass hpass).append (ih hcode)

theorem Subroutine.Emits.settles {env : Env} {s : Subroutine} {code : Code} {u : Scopes}
    (h : s.Emits env code u) : Settles code := by
  obtain ⟨-, hbody, -, hprologue⟩ := h
  refine ((Settles.of_isPrologue hprologue).append hbody.settles).append ?_
  split
  · exact .nil
  · rfl

/-- A prologue does nothing to the stack. -/
theorem Hold.run_dropWhile_prologue (holds : List Hold) (code : Code) :
    run holds (code.dropWhile Instruction.isPrologue) = run holds code := by
  induction code with
  | nil => rfl
  | cons i code ih =>
    by_cases hi : i.isPrologue
    · rw [List.dropWhile_cons_of_pos hi, ih]
      have hpass : i.rule = .pass := by
        cases i <;> first | rfl | cases hi
      simp [run, hpass, after]
    · rw [List.dropWhile_cons_of_neg hi]

theorem Instruction.rule_linked (place : String → UInt32) (i : Instruction) :
    (i.linked place).rule = i.rule := by
  cases i <;> rfl

theorem Hold.run_linked (place : String → UInt32) (holds : List Hold) (code : Code) :
    run holds (code.linked place) = run holds code := by
  simp only [run, Code.linked, List.foldlM_map, Instruction.rule_linked]

theorem Compiled.linear {c : Container} {isMethod : Bool} {s : Subroutine} {code : Code}
    (h : Compiled c isMethod s code) : Code.Linear (code.dropWhile Instruction.isPrologue) := by
  obtain ⟨env, place, raw, -, hemit⟩ := h
  obtain ⟨p, q, -, hrun, -⟩ := hemit.lowered
  obtain ⟨u, hraw⟩ := lowerSubroutine_emits env s p raw q hrun
  rw [Code.Linear, Hold.run_dropWhile_prologue, hemit.code, Hold.run_linked]
  exact hraw.settles.linear

end Lss
