import Lss.Proofs.Flattened
import Lss.Proofs.Inferred

/-!
# Methods left to the base

A class does not list a method for which its base has the same code. The method that the bases
supply in its place has the code of the one that was left out, up to the sign of zeros: code is
compared with floats as numbers, and the two zeros are one number.
-/
namespace Lss

namespace Binary32

def unsigned (x : Binary32) : Binary32 := if x.isZero then ⟨0⟩ else x

def negativeZero : Binary32 := ⟨0x80000000⟩

variable {x y : Binary32}

theorem unsigned_eq_of_agrees (h : x.agrees y) : x.unsigned = y.unsigned := by
  simp only [agrees, Bool.and_eq_true, Bool.or_eq_true] at h
  rcases h.2 with hbits | ⟨hx, hy⟩
  · rw [show x = y from congrArg mk (eq_of_beq hbits)]
  · rw [unsigned, unsigned, if_pos hx, if_pos hy]

theorem unsigned_eq_self (h : x ≠ negativeZero) : x.unsigned = x := by
  rw [unsigned]
  split
  next hzero =>
    have hlt := x.bits.toNat_lt
    have hne : x.bits.toNat ≠ 0x80000000 := fun heq => h (congrArg mk (UInt32.toNat_inj.mp heq))
    have hmod : x.bits.toNat % 0x80000000 = 0 := eq_of_beq hzero
    exact (congrArg mk (UInt32.toNat_inj.mp (show x.bits.toNat = 0 by omega))).symm
  next => rfl

end Binary32

namespace Instruction

def unsigned : Instruction → Instruction
  | .pushFloat x => .pushFloat x.unsigned
  | i => i

variable {i j : Instruction}

theorem unsigned_eq_of_agrees (h : i.agrees j) : i.unsigned = j.unsigned := by
  unfold agrees at h
  split at h
  next x y => exact congrArg pushFloat (Binary32.unsigned_eq_of_agrees h)
  next => rw [eq_of_beq h]

theorem unsigned_eq_self (h : i ≠ .pushFloat .negativeZero) : i.unsigned = i := by
  unfold unsigned
  split
  next x => exact congrArg pushFloat (Binary32.unsigned_eq_self fun heq => h (by rw [heq]))
  next => rfl

end Instruction

namespace Code

variable {a b : Code}

def Same (a b : Code) : Prop := a.map Instruction.unsigned = b.map Instruction.unsigned

theorem same_of_agrees (h : a.agrees b) : a.Same b := by
  rw [agrees, Bool.and_eq_true] at h
  obtain ⟨hlength, hall⟩ := h
  refine List.ext_getElem (by simpa using hlength) fun i hi hi' => ?_
  rw [List.getElem_map, List.getElem_map]
  rw [List.length_map] at hi hi'
  refine Instruction.unsigned_eq_of_agrees (List.all_eq_true.mp hall (a[i], b[i]) ?_)
  rw [← List.getElem_zip (h := by simpa using ⟨hi, hi'⟩)]
  exact List.getElem_mem _

theorem Same.eq (h : a.Same b) (ha : .pushFloat .negativeZero ∉ a)
    (hb : .pushFloat .negativeZero ∉ b) : a = b := by
  have hself {code : Code} (hcode : .pushFloat .negativeZero ∉ code) :
      code.map Instruction.unsigned = code :=
    List.map_congr_left (fun i hi => Instruction.unsigned_eq_self fun heq => hcode (heq ▸ hi))
      |>.trans (List.map_id code)
  rw [← hself ha, ← hself hb]
  exact h

end Code

namespace Container

variable {c : Container} {a : Nat} {k : ClassEntry} {m m' : MethodEntry} {s : SymbolId}

/-- The method that is found under a symbol along the bases of a class: the class's own if it lists
one, else that of its base. -/
inductive Supplies (c : Container) (s : SymbolId) : Nat → MethodEntry → Prop
  | own {a : Nat} {m : MethodEntry} :
    (c.ownMethods a).find? (·.symbol == s) = some m → Supplies c s a m
  | inherited {a b : Nat} {m : MethodEntry} :
    (c.ownMethods a).find? (·.symbol == s) = none → c.baseOf? a = some b → Supplies c s b m →
      Supplies c s a m

theorem Supplies.unique (h : c.Supplies s a m) (h' : c.Supplies s a m') : m' = m := by
  induction h with
  | own hown =>
    cases h' with
    | own hown' => exact Option.some.inj (hown'.symm.trans hown)
    | inherited hnone _ _ => cases hnone.symm.trans hown
  | inherited hnone hbase _ ih =>
    cases h' with
    | own hown' => cases hnone.symm.trans hown'
    | inherited _ hbase' h' =>
      cases hbase.symm.trans hbase'
      exact ih h'

/-- Either a class lists a method or its base has one with the same code. -/
theorem Derives.listed_or_omitted {b : Nat} {kb : ClassEntry} (hk : c.classes[a]? = some k)
    (h : c.Derives a k b kb) (hnodup : (k.methods.map (·.symbol)).Nodup) (hm : m ∈ k.methods) :
    (c.ownMethods a).find? (·.symbol == m.symbol) = some m ∨
      (c.ownMethods a).find? (·.symbol == m.symbol) = none ∧
        ∃ inherited ∈ kb.methods, inherited.symbol = m.symbol ∧ inherited.code.Same m.code := by
  rw [h.ownMethods_eq hk]
  generalize hown : (fun m : MethodEntry => (kb.method? m.symbol).all
    fun inherited => !inherited.code.agrees m.code) = isOwn
  cases hmine : isOwn m with
  | true =>
    left
    refine find?_of_nodup ?_ (List.mem_filter.mpr ⟨hm, hmine⟩)
    exact hnodup.sublist (List.filter_sublist.map _)
  | false =>
    right
    constructor
    · rw [List.find?_eq_none]
      intro m' hm' heq
      obtain ⟨hmem, hmine'⟩ := List.mem_filter.mp hm'
      rw [List.inj_on_of_nodup_map hnodup hmem hm (eq_of_beq heq), hmine] at hmine'
      cases hmine'
    · rw [← hown] at hmine
      dsimp only at hmine
      cases hbase : kb.method? m.symbol with
      | none =>
        rw [hbase] at hmine
        cases hmine
      | some inherited =>
        rw [hbase, Option.all_some, Bool.not_eq_false'] at hmine
        rw [ClassEntry.method?] at hbase
        have hsymbol := List.find?_some hbase
        exact ⟨inherited, List.mem_of_find?_eq_some hbase, eq_of_beq hsymbol,
          Code.same_of_agrees hmine⟩

/-- Along the bases the code stays the same, though each of them may have left the method to the
next. -/
theorem exists_supplies (hnodup : ∀ k ∈ c.classes, (k.methods.map (·.symbol)).Nodup)
    (hk : c.classes[a]? = some k) (hm : m ∈ k.methods) :
    ∃ m', c.Supplies m.symbol a m' ∧ m'.code.Same m.code := by
  obtain ⟨l, hlineage, -⟩ := exists_lineage hk
  induction hlineage generalizing k m with
  | root hnone =>
    rcases root_or_derives hk with ⟨-, hshape⟩ | ⟨b, kb, hsome, -⟩
    · refine ⟨m, .own ?_, rfl⟩
      rw [ownMethods_root hk hshape]
      exact find?_of_nodup (hnodup k (List.mem_of_getElem? hk)) hm
    · cases hnone.symm.trans hsome
  | @extend a b l hsome _ ih =>
    rcases root_or_derives hk with ⟨hnone, -⟩ | ⟨b', kb, hsome', hderives⟩
    · cases hnone.symm.trans hsome
    · cases hsome.symm.trans hsome'
      rcases hderives.listed_or_omitted hk (hnodup k (List.mem_of_getElem? hk)) hm with
        hown | ⟨hnone, inherited, hmem, hsymbol, hsame⟩
      · exact ⟨m, .own hown, rfl⟩
      · obtain ⟨m', hsupplies, hsame'⟩ := ih hderives.base hmem
        rw [hsymbol] at hsupplies
        exact ⟨m', .inherited hnone hsome hsupplies, hsame'.trans hsame⟩

/-- In a container that was compiled, each class has every method either listed or supplied by a
base with the same code, up to the sign of zeros. Where no negative zero is pushed the bytes are the
same. -/
theorem Grown.supplies {sources : List SourceUnit} (h : Grown sources c)
    (hk : c.classes[a]? = some k) (hm : m ∈ k.methods) :
    ∃ m', (∀ n, c.Supplies m.symbol a n ↔ n = m') ∧ m'.code.Same m.code ∧
      (.pushFloat .negativeZero ∉ m.code → .pushFloat .negativeZero ∉ m'.code →
        m'.code.encode = m.code.encode) := by
  obtain ⟨m', hsupplies, hsame⟩ := exists_supplies (fun k hk => (h.legible.laid k hk).nodup) hk hm
  refine ⟨m', fun n => ⟨fun hn => hsupplies.unique hn, fun hn => hn ▸ hsupplies⟩, hsame, ?_⟩
  exact fun hplain hplain' => congrArg Code.encode (hsame.eq hplain' hplain)

/-- Three classes, each the base of the next, of which the third has the method of the second. -/
def layered : SourceUnit where
  classes := [
    ⟨.identifier "A", none, [.identifier "x"], [⟨.identifier "m", [],
      ⟨[.return_ none .synthetic], .synthetic⟩⟩]⟩,
    ⟨.identifier "B", some (.identifier "A"), [.identifier "y"], [⟨.identifier "m", [],
      ⟨[.return_ (some .this) .synthetic], .synthetic⟩⟩]⟩,
    ⟨.identifier "C", some (.identifier "B"), [.identifier "z"], []⟩]

theorem Grown.supplies_layered : ∃ c k m m' sources, Grown sources c ∧ c.classes[2]? = some k ∧
    m ∈ k.methods ∧ c.ownMethods 2 = [] ∧ (∀ n, c.Supplies m.symbol 2 n ↔ n = m') ∧
    m'.code.Same m.code ∧ m'.code.encode = m.code.encode := by
  have hrun : ((ofSettings {}).compile {} [layered]).container.any
      fun c => (c.classes[2]?).any fun k => decide (c.ownMethods 2 = [] ∧
        k.methods = [⟨⟨1⟩, [.getVariable (.ofLocal 0), .return_]⟩] ∧ c.baseOf? 2 = some 1 ∧
        c.ownMethods 1 = [⟨⟨1⟩, [.getVariable (.ofLocal 0), .return_]⟩]) := by
    decide +kernel
  obtain ⟨c, hc, hrun⟩ := (Option.any_eq_true _ _).mp hrun
  obtain ⟨k, hk, hrun⟩ := (Option.any_eq_true _ _).mp hrun
  obtain ⟨hown, hmethods, hbase, hown'⟩ := of_decide_eq_true hrun
  have hgrown := Grown.session {} [layered] (.start {}) hc
  have hm : ⟨⟨1⟩, [.getVariable (.ofLocal 0), .return_]⟩ ∈ k.methods :=
    hmethods ▸ List.mem_singleton_self _
  obtain ⟨m', hsupplies, hsame, hencode⟩ := hgrown.supplies hk hm
  -- the second class has the method, without a float in it
  have hm' := (hsupplies ⟨⟨1⟩, [.getVariable (.ofLocal 0), .return_]⟩).mp
    (.inherited (by rw [hown]; rfl) hbase (.own (by rw [hown']; rfl)))
  exact ⟨c, k, _, m', _, hgrown, hk, hm, hown, hsupplies, hsame,
    hencode (by decide) (hm' ▸ by decide)⟩

def zeros : String :=
  "class A { function m() { return 0.0; } } class B : A { function m() { return -0.0; } }"

/-- The method of the second class is left out, and what is found for it has other bytes. -/
theorem supplies_zeros : ∃ c k m m', (compileSource {} zeros none).container = some c ∧
    c.classes[1]? = some k ∧ m ∈ k.methods ∧ c.Supplies m.symbol 1 m' ∧
    m'.code.encode = .ok [0x08, 0, 0, 0, 0, 0x90] ∧
    m.code.encode = .ok [0x08, 0, 0, 0, 0x80, 0x90] := by
  have hrun : (compileSource {} zeros none).container.any fun c => (c.classes[1]?).any fun k =>
      decide (k.methods = [⟨⟨0⟩, [.pushFloat .negativeZero, .return_]⟩] ∧
        c.ownMethods 1 = [] ∧ c.baseOf? 1 = some 0 ∧
        c.ownMethods 0 = [⟨⟨0⟩, [.pushFloat ⟨0⟩, .return_]⟩]) := by
    decide +kernel
  obtain ⟨c, hc, hrun⟩ := (Option.any_eq_true _ _).mp hrun
  obtain ⟨k, hk, hrun⟩ := (Option.any_eq_true _ _).mp hrun
  obtain ⟨hmethods, hown, hbase, hown'⟩ := of_decide_eq_true hrun
  have hm : ⟨⟨0⟩, [.pushFloat .negativeZero, .return_]⟩ ∈ k.methods :=
    hmethods ▸ List.mem_singleton_self _
  exact ⟨c, k, _, ⟨⟨0⟩, [.pushFloat ⟨0⟩, .return_]⟩, hc, hk, hm,
    .inherited (by rw [hown]; rfl) hbase (.own (by rw [hown']; rfl)), by rfl, by rfl⟩

end Container

end Lss
