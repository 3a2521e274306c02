import Lss.Proofs.Compiled

/-!
# Operands and links over sessions

A container that sessions built one after another has only operands that refer to something, and
every static call leads to the function that its source names.
-/
namespace Lss

def Code.allocated (code : Code) : Nat :=
  let count : Instruction → Option Nat
    | .allocateLocals n => some n.toNat
    | _ => none
  (code.findSome? count).getD 0

namespace Container

def codeSize (c : Container) : Nat :=
  Code.size (c.functions.flatMap (·.code)) +
    Code.size (c.classes.flatMap fun k => k.methods.flatMap (·.code))

/-- Calls of `f` with `argc` arguments that go to `target` find a function of that name which
takes as many. -/
def Calls (c : Container) (target : UInt32) (f : String) (argc : UInt8) : Prop :=
  ∃ i e, c.functionAt? target = some i ∧ c.functions[i]? = some e ∧ e.name = f ∧
    e.parameterCount = argc

section

variable {c : Container}

theorem before_succ {k : Nat} {e : FunctionEntry} (h : c.functions[k]? = some e) :
    c.before (k + 1) = c.before k + e.code.size := by
  unfold before
  rw [List.take_add_one, h]
  simp

theorem before_lt (hne : ∀ e ∈ c.functions, e.code ≠ []) {j k : Nat} (hjk : j < k)
    (hk : k ≤ c.functions.length) : c.before j < c.before k := by
  induction k with
  | zero => cases hjk
  | succ k ih =>
    have hget := List.getElem?_eq_getElem (l := c.functions) hk
    have hpos : 0 < c.functions[k].code.size := by
      obtain ⟨i, code, hcode⟩ := List.exists_cons_of_ne_nil (hne _ (List.getElem_mem hk))
      rw [hcode, Code.size_cons]
      exact Nat.add_pos_left i.size_pos _
    rw [before_succ hget]
    rcases Nat.lt_succ_iff_lt_or_eq.mp hjk with hlt | rfl
    · have := ih hlt (Nat.le_of_lt hk)
      omega
    · omega

theorem before_le (c : Container) (k : Nat) : c.before k ≤ c.codeSize := by
  unfold before codeSize
  have : Code.size (c.functions.flatMap (·.code)) =
      Code.size ((c.functions.take k).flatMap (·.code)) +
        Code.size ((c.functions.drop k).flatMap (·.code)) := by
    rw [← Code.size_append, ← List.flatMap_append, List.take_append_drop]
  omega

/-- No two functions start at one place, so that the one a call leads to is found. -/
theorem LeadsTo.calls (hne : ∀ e ∈ c.functions, e.code ≠ []) (hsize : c.codeSize < UInt32.size)
    {t : UInt32} {f : String} {argc : UInt8} (h : c.LeadsTo t f argc) : c.Calls t f argc := by
  obtain ⟨k, e, hk, hname, hcount, ht⟩ := h
  have hwrap (j : Nat) : wrap (c.before j) = c.before j :=
    Nat.mod_eq_of_lt (Nat.lt_of_le_of_lt (c.before_le j) hsize)
  have hlt := (List.getElem?_eq_some_iff.mp hk).1
  refine ⟨k, e, ?_, hk, hname, hcount⟩
  rw [functionAt?, List.findIdx?_eq_some_iff_getElem]
  have hlen : k < c.functionOffsets.length := by
    rw [functionOffsets_eq]
    simpa using hlt
  refine ⟨hlen, ?_, fun j hj => ?_⟩
  · simp [functionOffsets_eq, ht]
  · have hbefore := before_lt hne hj (Nat.le_of_lt hlt)
    simp only [functionOffsets_eq, List.getElem_map, List.getElem_range, ht, hwrap, beq_iff_eq]
    omega

end

/-- Code of a subroutine in a container: its operands refer to what is there, and its static calls
are those that lowering made of the calls of the source, each led to its function. -/
structure Integral (c : Container) (isMethod : Bool) (count : UInt8) (s : Subroutine)
    (code : Code) : Prop where
  operands : ∀ i ∈ code, i.Resolves c (isMethod.toNat + count.toNat + code.allocated)
  calls : ∃ (env : Env) (p q : Pool) (raw : Code) (place : String → UInt32),
    (lowerSubroutine env s).run.run p = (.ok raw, q) ∧ env.owner.isSome = isMethod ∧
    code = raw.linked place ∧ (∀ t argc, .callFunction t argc ∉ raw) ∧
    ∀ f argc, .unresolvedCall f argc ∈ raw → c.Calls (place f) f argc

end Container

section

variable {isMethod : Bool} {count : UInt8} {extra : UInt16} {body : Code}

theorem Code.allocated_prologue (hbody : ∀ i ∈ body, ¬ i.isPrologue) :
    Code.allocated (Code.prologue isMethod count extra ++ body) = extra.toNat := by
  have hnone : (body.findSome? fun
      | .allocateLocals n => some n.toNat
      | _ => none) = none := by
    rw [List.findSome?_eq_none_iff]
    intro i hi
    have := hbody i hi
    cases i <;> first | rfl | exact absurd rfl this
  have hzero (h : ¬ extra > 0) : extra.toNat = 0 := by
    rw [gt_iff_lt, UInt16.lt_iff_toNat_lt] at h
    exact Nat.eq_zero_of_not_pos h
  unfold Code.allocated Code.prologue
  by_cases hm : isMethod && count > 0 <;> by_cases he : extra > 0 <;>
    simp [hm, he, hnone, hzero]

theorem takeWhile_prologue (hbody : ∀ i ∈ body, ¬ i.isPrologue) :
    (Code.prologue isMethod count extra ++ body).takeWhile Instruction.isPrologue =
      Code.prologue isMethod count extra := by
  rw [List.takeWhile_append_of_pos fun i hi => Code.isPrologue_of_mem_prologue hi]
  cases body with
  | nil => simp
  | cons i body => simp [hbody i List.mem_cons_self]

/-- A method tells how many parameters it has by the check at its head. -/
theorem MethodEntry.parameterCount_prologue (symbol : SymbolId)
    (hbody : ∀ i ∈ body, ¬ i.isPrologue) :
    MethodEntry.parameterCount ⟨symbol, Code.prologue true count extra ++ body⟩ = count := by
  have hzero (h : ¬ count > 0) : count = 0 := by
    rw [gt_iff_lt, UInt8.lt_iff_toNat_lt] at h
    exact UInt8.toNat_inj.mp (Nat.eq_zero_of_not_pos h)
  unfold MethodEntry.parameterCount
  simp only [takeWhile_prologue hbody]
  unfold Code.prologue
  by_cases hc : count > 0 <;> by_cases he : extra > 0 <;> simp [hc, he, hzero]

end

theorem Instruction.fits_of_not_isActive {L : Limits} {i : Instruction} (h : ¬ i.isActive) :
    i.Fits L := by
  cases i <;> first | exact absurd rfl h | trivial

theorem BodyOf.ne_nil {P : Nat → Instruction → Prop} {isMethod : Bool} {s : Subroutine}
    {code : Code} (h : BodyOf P isMethod s code) : code ≠ [] := by
  obtain ⟨_, _, _, -, -, rfl, _, _, _, -, rfl, -⟩ := h
  simp

namespace Container

variable {c : Container} {sources : List SourceUnit}

theorem integral_of_compiled (hne : ∀ e ∈ c.functions, e.code ≠ [])
    (hsize : c.codeSize < UInt32.size) {isMethod : Bool} {s : Subroutine} {code : Code}
    (h : Compiled c isMethod s code) :
    ∃ count : UInt8, count.toNat = s.parameters.length ∧ c.Integral isMethod count s code ∧
      (isMethod → ∀ symbol, MethodEntry.parameterCount ⟨symbol, code⟩ = count) := by
  obtain ⟨count, extra, body, hcount, hcode, hbody, hall⟩ :=
    h.body.forall_mem (fun n i _ hi => hi) (fun n i hi => Instruction.resolves_of_not_isActive hi)
  obtain ⟨env, place, raw, howner, hemit⟩ := h
  obtain ⟨_, _, _, -, -, -, hraw⟩ := (hemit.lowered.body hemit.globals).forall_mem
    (fun n i _ hi => hi) (fun n i hi => Instruction.fits_of_not_isActive hi)
  obtain ⟨p, q, -, hrun, -⟩ := hemit.lowered
  refine ⟨count, hcount, ⟨?_, env, p, q, raw, place, hrun, howner, hemit.code, ?_, ?_⟩, ?_⟩
  · rw [hcode, Code.allocated_prologue hbody, ← hcode]
    exact hall
  · exact fun t argc ht => hraw _ ht
  · exact fun f argc hf => (hemit.functions f argc (hraw _ hf)).calls hne hsize
  · rintro rfl symbol
    rw [hcode]
    exact MethodEntry.parameterCount_prologue symbol hbody

/-- Every body has the code of a subroutine of the sources, with all that it refers to. -/
structure Intact (c : Container) (sources : List SourceUnit) : Prop where
  functions : ∀ e ∈ c.functions, ∃ s ∈ sources.flatMap (·.functions), e.name = s.name.text ∧
    c.Integral false e.parameterCount s e.code
  methods : ∀ k ∈ c.classes, ∀ e ∈ k.methods, ∃ d ∈ sources.flatMap (·.classes), ∃ m ∈ d.methods,
    c.symbols.get? e.symbol.index = some m.name.text ∧ c.Integral true e.parameterCount m e.code

/-- Sessions leave nothing dangling, as long as places of code fit 32 bits. -/
theorem Grown.intact (h : Grown sources c) (hsize : c.codeSize < UInt32.size) :
    c.Intact sources := by
  have hc := h.holds
  have hne (e : FunctionEntry) (he : e ∈ c.functions) : e.code ≠ [] := by
    obtain ⟨s, -, hs⟩ := hc.exists_bears he
    exact hs.code.body.ne_nil
  refine ⟨fun e he => ?_, fun k hk e he => ?_⟩
  · obtain ⟨s, hs, hspec⟩ := hc.exists_bears he
    obtain ⟨count, hcount, hintegral, -⟩ := integral_of_compiled hne hsize hspec.code
    have : e.parameterCount = count := UInt8.toNat_inj.mp (hspec.parameters.trans hcount.symm)
    rw [this]
    exact ⟨s, hs, hspec.name, hintegral⟩
  · obtain ⟨m, hname, ⟨d, hd, hm⟩, hcomp⟩ := (hc.classes k hk).methods e he
    obtain ⟨count, -, hintegral, hparams⟩ := integral_of_compiled hne hsize hcomp
    rw [hparams rfl e.symbol]
    exact ⟨d, hd, m, hm, hname, hintegral⟩

theorem Grown.intact_callee_caller :
    ∃ c d, ((ofSettings {}).compile {} [callee]).container = some c ∧
      (c.compile { lineNumbers := true } [caller]).container = some d ∧ d.codeSize < UInt32.size ∧
      d.Intact [callee, caller] := by
  have hrun : (((ofSettings {}).compile {} [callee]).container.bind fun c =>
      (c.compile { lineNumbers := true } [caller]).container).any (·.codeSize < UInt32.size) := by
    decide +kernel
  obtain ⟨d, hd, hsize⟩ := (Option.any_eq_true _ _).mp hrun
  obtain ⟨c, hc, hd⟩ := Option.bind_eq_some_iff.mp hd
  have hsize : d.codeSize < UInt32.size := of_decide_eq_true hsize
  have hgrown : Grown [callee, caller] d :=
    .session _ [caller] (.session {} [callee] (.start {}) hc) hd
  exact ⟨c, d, hc, hd, hsize, hgrown.intact hsize⟩

end Container

end Lss
