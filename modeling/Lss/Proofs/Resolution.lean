import Lss.Proofs.Linking
import Lss.Proofs.Sessions

/-!
# Operands of linked code

What the operands of finished code refer to is there: entries of the tables, locals, and functions
that take as many arguments as the call passes. Where a function starts depends on the sizes of
those before it only. So linking moves none, and adding functions at the end moves none that was
there.
-/
namespace Lss

namespace Container

theorem starts_cons (offset : Nat) (code : Code) (bodies : List Code) :
    starts offset (code :: bodies) =
      (offset :: (starts (offset + code.size) bodies).1,
        (starts (offset + code.size) bodies).2) := by
  -- what was found before goes in front of what is found next
  have honto (bodies : List Code) (acc : List Nat) (n : Nat) :
      bodies.foldl (fun x code => (x.2 :: x.1, x.2 + code.size)) (acc, n) =
        ((starts n bodies).1.reverse ++ acc, (starts n bodies).2) := by
    induction bodies generalizing acc n with
    | nil => rfl
    | cons code bodies ih =>
      have hone := ih [n] (n + code.size)
      simp only [List.foldl_cons, starts] at hone ih ⊢
      rw [ih, hone]
      simp
  have := honto bodies [offset] (offset + code.size)
  simp only [starts, List.foldl_cons] at this ⊢
  rw [this]
  simp

theorem starts_fst (offset : Nat) (bodies : List Code) :
    (starts offset bodies).1 =
      (List.range bodies.length).map fun k => offset + Code.size (bodies.take k).flatten := by
  induction bodies generalizing offset with
  | nil => rfl
  | cons code bodies ih =>
    rw [starts_cons, ih, List.length_cons, List.range_succ_eq_map]
    simp [Nat.add_assoc]

theorem starts_snd (offset : Nat) (bodies : List Code) :
    (starts offset bodies).2 = offset + Code.size bodies.flatten := by
  induction bodies generalizing offset with
  | nil => rfl
  | cons code bodies ih =>
    rw [starts_cons, ih]
    simp [Nat.add_assoc]

def before (c : Container) (k : Nat) : Nat :=
  Code.size ((c.functions.take k).flatMap (·.code))

theorem functionOffsets_eq (c : Container) :
    c.functionOffsets = (List.range c.functions.length).map fun k => wrap (c.before k) := by
  unfold functionOffsets before
  rw [starts_fst]
  simp [← List.map_take, List.flatMap_def]

theorem wrap_lt (n : Nat) : wrap n < UInt32.size := Nat.mod_lt _ (by decide)

def LeadsTo (c : Container) (t : UInt32) (f : String) (argc : UInt8) : Prop :=
  ∃ (k : Nat) (e : FunctionEntry), c.functions[k]? = some e ∧ e.name = f ∧
    e.parameterCount = argc ∧ t.toNat = wrap (c.before k)

theorem before_eq {c d : Container} (h : c.functions <+: d.functions) {k : Nat}
    (hk : k < c.functions.length) : d.before k = c.before k := by
  obtain ⟨rest, hrest⟩ := h
  unfold before
  rw [← hrest, List.take_append_of_le_length (Nat.le_of_lt hk)]

theorem LeadsTo.mono {c d : Container} (h : c.functions <+: d.functions) {t : UInt32} {f : String}
    {argc : UInt8} (ht : c.LeadsTo t f argc) : d.LeadsTo t f argc := by
  obtain ⟨k, e, hk, hname, hcount, hplace⟩ := ht
  have hlt := (List.getElem?_eq_some_iff.mp hk).1
  refine ⟨k, e, ?_, hname, hcount, ?_⟩
  · obtain ⟨rest, hrest⟩ := h
    rw [← hrest, List.getElem?_append_left hlt]
    exact hk
  · rw [before_eq h hlt]
    exact hplace

theorem isSome_targets {c : Container} {e : FunctionEntry} (he : e ∈ c.functions) :
    c.targets[e.name]?.isSome := by
  obtain ⟨i, hi, hie⟩ := List.mem_iff_getElem.mp he
  refine isSome_foldl_insert (f := fun x : FunctionEntry × Nat => x.1.name) (g := fun x => x.2)
    (Or.inr ⟨(e, wrap (c.before i)), ?_, rfl⟩)
  refine List.mem_iff_getElem.mpr ⟨i, ?_, ?_⟩
  · rw [List.length_zip, functionOffsets_eq, List.length_map, List.length_range, Nat.min_self]
    exact hi
  · simp only [List.getElem_zip, functionOffsets_eq, List.getElem_map, List.getElem_range, hie]

/-- A name that linking finds is that of a function which starts there. -/
theorem target_spec {c : Container} {f : String} (h : c.targets[f]?.isSome) :
    ∃ (k : Nat) (e : FunctionEntry), c.functions[k]? = some e ∧ e.name = f ∧
      (Code.placeIn c.targets f).toNat = wrap (c.before k) := by
  obtain ⟨offset, hoffset⟩ := Option.isSome_iff_exists.mp h
  rcases mem_of_foldl_insert (f := fun x : FunctionEntry × Nat => x.1.name) (v := offset)
    (g := fun x => x.2) hoffset with h | ⟨⟨e, _⟩, hmem, hname, rfl⟩
  · simp at h
  · obtain ⟨k, hk, hke⟩ := List.mem_iff_getElem.mp hmem
    simp only [List.length_zip] at hk
    simp only [List.getElem_zip, Prod.mk.injEq, functionOffsets_eq, List.getElem_map,
      List.getElem_range] at hke
    refine ⟨k, e, ?_, hname, ?_⟩
    · rw [List.getElem?_eq_getElem (by omega), hke.1]
    · rw [Code.placeIn, hoffset, Option.getD_some, ← hke.2]
      exact UInt32.toNat_ofNat_of_lt' (wrap_lt _)

end Container

namespace Slot

/-- The flag is the top bit, and the index is the rest. -/
theorem toNat_index (s : Slot) : s.index.toNat = s.val.toNat % 0x8000 := by
  rw [index, UInt16.toNat_and]
  exact Nat.and_two_pow_sub_one_eq_mod _ 15

theorem isGlobal_eq (s : Slot) : s.isGlobal = s.val.toNat.testBit 15 := by
  have hbit (j : Nat) : (s.val &&& globalFlag).toNat.testBit j =
      (s.val.toNat.testBit j && decide (15 = j)) := by
    have hflag : globalFlag.toNat = 2 ^ 15 := rfl
    rw [UInt16.toNat_and, Nat.testBit_and, hflag, Nat.testBit_two_pow]
  have hzero : s.val &&& globalFlag = 0 ↔ s.val.toNat.testBit 15 = false := by
    rw [← UInt16.toNat_inj]
    constructor
    · intro h
      have := hbit 15
      rw [h] at this
      simpa using this.symm
    · intro h
      refine Nat.eq_of_testBit_eq fun j => ?_
      rw [hbit]
      by_cases hj : 15 = j
      · simp [← hj, h]
      · simp [hj]
  rw [isGlobal, bne]
  cases h : s.val.toNat.testBit 15 with
  | true => simpa [h] using hzero
  | false => simpa [h] using hzero

/-- A number that fits an operand is found in it again. -/
theorem index_ofLocal {i : UInt16} (h : i.toNat < 0x8000) : (ofLocal i).index = i :=
  UInt16.toNat_inj.mp ((toNat_index (ofLocal i)).trans (Nat.mod_eq_of_lt h))

theorem isGlobal_ofLocal {i : UInt16} (h : i.toNat < 0x8000) : (ofLocal i).isGlobal = false := by
  rw [isGlobal_eq]
  exact Nat.testBit_lt_two_pow h

theorem isGlobal_ofGlobal (i : UInt16) : (ofGlobal i).isGlobal = true := by
  rw [isGlobal_eq, ofGlobal, UInt16.toNat_or, Nat.testBit_or, Bool.or_eq_true]
  exact Or.inr (by decide)

/-- The flag takes the place of the top bit. -/
theorem toNat_index_ofGlobal (i : UInt16) : (ofGlobal i).index.toNat = i.toNat % 0x8000 := by
  have hpow : 0x8000 = 2 ^ 15 := rfl
  rw [toNat_index, ofGlobal, UInt16.toNat_or, hpow, Nat.or_mod_two_pow]
  have : globalFlag.toNat % 2 ^ 15 = 0 := by decide
  rw [this, Nat.or_zero]

theorem toNat_index_ofGlobal_le (i : UInt16) : (ofGlobal i).index.toNat ≤ i.toNat := by
  rw [toNat_index_ofGlobal]
  exact Nat.mod_le _ _

def Resolves (c : Container) (n : Nat) (s : Slot) : Prop :=
  s.index.toNat < if s.isGlobal then c.globals.size else n

theorem Fits.resolves {L : Limits} {c : Container} {s : Slot} (hlocals : L.locals ≤ Draft.maxLocals)
    (hglobals : L.globals ≤ c.globals.size) (h : s.Fits L) : s.Resolves c L.locals := by
  rcases h with ⟨i, rfl, hi⟩ | ⟨i, rfl, hi⟩
  · have hlt : i.toNat < 0x8000 :=
      Nat.lt_of_lt_of_le (Nat.lt_of_lt_of_le hi hlocals) (by decide)
    rw [Resolves, isGlobal_ofLocal hlt, toNat_index]
    exact Nat.lt_of_le_of_lt (Nat.mod_le _ _) hi
  · rw [Resolves, isGlobal_ofGlobal]
    exact Nat.lt_of_le_of_lt (toNat_index_ofGlobal_le i) (Nat.lt_of_lt_of_le hi hglobals)

end Slot

namespace Instruction

def Resolves (c : Container) (n : Nat) : Instruction → Prop
  | .pushString s => s.index.toNat < c.strings.size
  | .getVariable s | .setVariable s => s.Resolves c n
  | .getMember m | .setMember m | .getThisMember m | .setThisMember m | .createObject m
  | .lookupMethod m | .getDynamicGameVariable m | .callDynamicGameFunction m _ | .callMethod m _
  | .callThisMethod m _ => m.index.toNat < c.symbols.size
  | .getGameVariable s n | .setGameVariable s n | .callGameFunction s n _ =>
    s.index.toNat < c.symbols.size ∧ n.index.toNat < c.symbols.size
  | .callFunction target argc => ∃ f, c.LeadsTo target f argc
  | .unresolvedCall _ _ => False
  | _ => True

/-- What fits before linking resolves after it, if every known function is where linking says. -/
theorem Fits.resolves {env : Env} {c : Container} {n : Nat} {place : String → UInt32}
    (hn : n ≤ Draft.maxLocals) (hglobals : env.globals.size ≤ c.globals.size)
    (hplace : ∀ f argc, env.functions[f]? = some argc → c.LeadsTo (place f) f argc)
    {i : Instruction} (h : i.Fits (c.pool.limits env n)) : (i.linked place).Resolves c n := by
  cases i with
  | getVariable | setVariable => exact Slot.Fits.resolves hn hglobals h
  | unresolvedCall f argc => exact ⟨f, hplace f argc h⟩
  | callFunction => exact h.elim
  | _ => exact h

theorem resolves_of_not_isActive {c : Container} {n : Nat} {i : Instruction} (h : ¬ i.isActive) :
    i.Resolves c n := by
  cases i <;> first | exact absurd rfl h | trivial

end Instruction

end Lss
