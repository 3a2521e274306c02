import Lss.Proofs.LoweredStmt

/-!
# Bodies of subroutines

A body is a prologue that makes room for its locals, then statements that end in a `return`. The
`return` is the last statement of the source, or one that is added behind it.
-/
namespace Lss

open Lower

/-- What a body starts with: methods check how many arguments there are, and locals beside the
object and the parameters are allocated. -/
def Code.prologue (isMethod : Bool) (count : UInt8) (extra : UInt16) : Code :=
  (if isMethod && count > 0 then [.checkArgumentCount count] else []) ++
    (if extra > 0 then [.allocateLocals extra] else [])

/-- A body for a subroutine. What its instructions satisfy may depend on its number of locals. -/
def BodyOf (P : Nat → Instruction → Prop) (isMethod : Bool) (s : Subroutine) (code : Code) :
    Prop :=
  ∃ (count : UInt8) (extra : UInt16) (body : Code),
    count.toNat = s.parameters.length ∧
    isMethod.toNat + count.toNat + extra.toNat ≤ Draft.maxLocals ∧
    code = Code.prologue isMethod count extra ++ body ∧
    Closed (P (isMethod.toNat + count.toNat + extra.toNat)) (Stmt.skeletons s.completed) body

theorem BodyOf.imp {P Q : Nat → Instruction → Prop} {isMethod : Bool} {s : Subroutine}
    {code : Code} (hpq : ∀ n ≤ Draft.maxLocals, ∀ i, P n i → Q n i) (h : BodyOf P isMethod s code) :
    BodyOf Q isMethod s code := by
  obtain ⟨count, extra, body, hcount, hmax, hcode, hbody⟩ := h
  exact ⟨count, extra, body, hcount, hmax, hcode, hbody.imp (hpq _ hmax)⟩

theorem Code.isPrologue_of_mem_prologue {isMethod : Bool} {count : UInt8} {extra : UInt16}
    {i : Instruction} (h : i ∈ Code.prologue isMethod count extra) : i.isPrologue := by
  unfold Code.prologue at h
  rcases List.mem_append.mp h with h | h <;> split at h
  · rw [List.mem_singleton.mp h]
    rfl
  · cases h
  · rw [List.mem_singleton.mp h]
    rfl
  · cases h

theorem Shaped.not_isPrologue {P : Instruction → Prop} {sk : List Skeleton} {code : Code}
    (h : Shaped P sk code) : ∀ i ∈ code, ¬ i.isPrologue := by
  refine h.forall_mem (fun i hi _ hp => ?_) (fun i hi hp => ?_)
  · simp [Instruction.isActive, hp] at hi
  · cases i <;> cases hi <;> cases hp

/-- All instructions of a body satisfy what follows from what is known of them. -/
theorem BodyOf.forall_mem {P Q : Nat → Instruction → Prop} {isMethod : Bool} {s : Subroutine}
    {code : Code} (hact : ∀ n (i : Instruction), i.isActive → P n i → Q n i)
    (hrest : ∀ n (i : Instruction), ¬ i.isActive → Q n i) (h : BodyOf P isMethod s code) :
    ∃ (count : UInt8) (extra : UInt16) (body : Code), count.toNat = s.parameters.length ∧
      code = Code.prologue isMethod count extra ++ body ∧ (∀ i ∈ body, ¬ i.isPrologue) ∧
      ∀ i ∈ code, Q (isMethod.toNat + count.toNat + extra.toNat) i := by
  obtain ⟨count, extra, body, hcount, -, rfl, hbody⟩ := h
  have hbody := hbody.shaped
  refine ⟨count, extra, body, hcount, rfl, hbody.not_isPrologue, ?_⟩
  refine List.forall_mem_append.mpr ⟨fun i hi => hrest _ i ?_, hbody.forall_mem (hact _) ?_⟩
  · simp [Instruction.isActive, Code.isPrologue_of_mem_prologue hi]
  · intro i hi
    exact hrest _ i (by simp [Instruction.isActive, hi])

namespace Draft

theorem declareAll_sound {ps : List Token} {s u : Scopes} (hs : s.Sound)
    (h : declareAll s ps = .ok u) : u.Sound ∧ u.slotCount = s.slotCount + ps.length := by
  induction ps generalizing s with
  | nil =>
    cases h
    exact ⟨hs, rfl⟩
  | cons p ps ih =>
    unfold declareAll at h
    split at h
    · next v hd =>
      obtain ⟨hv, hcount, -⟩ := hs.declare hd
      obtain ⟨hu, hlen⟩ := ih hv h
      refine ⟨hu, ?_⟩
      rw [hlen, hcount, List.length_cons]
      omega
    · cases h

theorem seed_sound (isMethod : Bool) :
    (start.seed isMethod).Sound ∧ (start.seed isMethod).slotCount = isMethod.toNat := by
  have hempty : Scopes.Sound {} := by
    intro f hf
    simp at hf
  have hstart : Scopes.start.Sound := hempty.enter
  cases isMethod with
  | false => exact ⟨hstart, rfl⟩
  | true =>
    obtain ⟨hs, hcount, -⟩ := hstart.declareHidden "this"
    exact ⟨hs, hcount⟩

/-- A draft starts with a slot for the object and for every parameter. -/
theorem start_sound {name : String} {ps : List Token} {isMethod : Bool} {d : Draft}
    (h : start name ps isMethod = .ok d) :
    d.isMethod = isMethod ∧ d.parameterCount.toNat = ps.length ∧ d.scopes.Sound ∧
      d.scopes.slotCount = isMethod.toNat + ps.length := by
  obtain ⟨hseed, hcount⟩ := seed_sound isMethod
  unfold start at h
  split at h
  · cases h
    exact ⟨rfl, rfl, hseed, hcount⟩
  · split at h
    · cases h
    · next hlen =>
      split at h
      · next scopes hall =>
        cases h
        obtain ⟨hs, hslots⟩ := declareAll_sound hseed hall
        refine ⟨rfl, toNat_argc hlen, hs, ?_⟩
        rw [hslots, hcount]
      · cases h

/-- A finished body allocates what its scopes handed out, and no more than operands address. -/
theorem finish_eq {d : Draft} {endsInReturn : Bool} {span : Span} {code : Code}
    (h : d.finish endsInReturn span = .ok code)
    (hslots : d.isMethod.toNat + d.parameterCount.toNat ≤ d.scopes.slotCount) :
    ∃ extra : UInt16,
      d.isMethod.toNat + d.parameterCount.toNat + extra.toNat = d.scopes.slotCount ∧
      d.scopes.slotCount ≤ maxLocals ∧
      code = Code.prologue d.isMethod d.parameterCount extra ++
        (d.code.toList ++ if endsInReturn then [] else implicitReturn) := by
  unfold finish at h
  split at h
  · cases h
  · next hmax =>
    cases h
    have hextra : (UInt16.ofNat d.extraLocals).toNat = d.extraLocals := by
      refine UInt16.toNat_ofNat_of_lt' ?_
      simp only [maxLocals, extraLocals, UInt16.size] at hmax ⊢
      omega
    have hpos : d.extraLocals > 0 ↔ UInt16.ofNat d.extraLocals > 0 := by
      rw [gt_iff_lt, gt_iff_lt, UInt16.lt_iff_toNat_lt, hextra]
      rfl
    refine ⟨UInt16.ofNat d.extraLocals, ?_, Nat.le_of_not_lt hmax, ?_⟩
    · rw [hextra, extraLocals]
      omega
    · simp only [prologue, Code.prologue, hpos, List.append_assoc]

end Draft

section

variable {env : Env} {p : Pool}

theorem lowerStmts_closed (env : Env) {ss : List Stmt} (hss : ss.getLast?.any Stmt.isReturn)
    (sk : List Skeleton) (acc : Code) (scopes : Scopes) (p : Pool)
    (henv : env.Sound scopes.slotCount) (hs : scopes.Sound)
    (hacc : Statements env scopes.slotCount p sk acc.reverse) :
    Meets p (lowerStmts env acc scopes ss) fun q r => scopes.slotCount ≤ r.2.slotCount ∧
      Closed (Instruction.Fits (q.limits env r.2.slotCount)) (sk ++ Stmt.skeletons ss) r.1 := by
  induction ss generalizing sk acc scopes p with
  | nil => cases hss
  | cons s ss ih =>
    simp only [lowerStmts, Stmt.skeletons]
    cases ss with
    | nil =>
      have hlast : s.isReturn := hss
      have hskeleton : s.skeleton = [.return_] := by
        cases s <;> first | rfl | cases hlast
      have hmarked : Meets p (marked env s <$> lowerStmt env scopes s) fun q r =>
          r.2 = scopes ∧ ∃ v, r.1 = lineMark env s ++ (v ++ [Instruction.return_]) ∧
            Values env scopes.slotCount q 1 v := by
        refine .map ((lowerReturn_meets henv hs hlast).imp ?_)
        rintro q ⟨code, u⟩ - ⟨rfl, v, rfl, hv⟩
        exact ⟨rfl, v, rfl, hv⟩
      refine .bind hmarked ?_
      rintro q ⟨code, u⟩ hpq ⟨rfl, v, rfl, hv⟩
      have hacc := (hacc.grow hpq (Nat.le_refl _)).append (lineMark_shaped env s)
      rw [List.append_nil] at hacc
      simp only [lowerStmts, Stmt.skeletons, hskeleton, List.append_nil]
      refine .pure ⟨Nat.le_refl _, sk, acc.reverse ++ lineMark env s, v, rfl, ?_, hacc, hv⟩
      simp
    | cons t ss =>
      refine .bind (.map ((lowerStmt_meets env s scopes p henv hs).imp
        fun q r _ h => h.marked s)) ?_
      rintro q ⟨code, u⟩ hpq h
      have hacc := (hacc.grow hpq h.grows).reverse_append h.shaped
      refine (ih hss (sk ++ s.skeleton) (code.reverse ++ acc) u q (henv.mono h.grows) h.sound
        hacc).imp fun r l _ hl => ?_
      rw [List.append_assoc] at hl
      exact ⟨Nat.le_trans h.grows hl.1, hl.2⟩

theorem lowerSubroutine_meets (hg : env.globals.Exact) (s : Subroutine) :
    Meets p (lowerSubroutine env s) fun q =>
      BodyOf (fun n => Instruction.Fits (q.limits env n)) env.owner.isSome s := by
  unfold lowerSubroutine
  refine .bind (.ofExcept _) fun q draft _ hstart => ?_
  obtain ⟨hmethod, hcount, hscopes, hslots⟩ := Draft.start_sound hstart
  have henv : env.Sound draft.scopes.slotCount := by
    refine ⟨hg, fun howner => ?_⟩
    rw [hslots, howner]
    exact Nat.lt_of_lt_of_le Nat.one_pos (Nat.le_add_right _ _)
  -- whether the source ends in a `return` decides who closes the body
  by_cases hret : s.body.statements.getLast?.any Stmt.isReturn
  · refine .bind (lowerStmts_closed env hret [] [] draft.scopes q henv hscopes .nil) ?_
    rintro r ⟨code, u⟩ - ⟨hgrows, hclosed⟩
    refine (Meets.ofExcept _).imp fun v body hrv hfinish => ?_
    obtain ⟨extra, hextra, hmax, rfl⟩ := Draft.finish_eq hfinish (by
      simp only at hgrows ⊢
      rw [hmethod, hcount, ← hslots]
      exact hgrows)
    simp only at hextra hmax
    refine ⟨draft.parameterCount, extra, code, hcount, ?_, ?_, ?_⟩
    · rw [← hmethod, hextra]
      exact hmax
    · simp [hmethod, hret]
    · rw [← hmethod, hextra, SubroutineOf.completed, if_pos hret, List.append_nil]
      exact hclosed.imp (Instruction.Fits.mono (hrv.below env (Nat.le_refl _)))
  · refine .bind (lowerStmts_meets env s.body.statements [] [] draft.scopes q henv hscopes .nil) ?_
    rintro r ⟨code, u⟩ - h
    refine (Meets.ofExcept _).imp fun v body hrv hfinish => ?_
    obtain ⟨extra, hextra, hmax, rfl⟩ := Draft.finish_eq hfinish (by
      have := h.grows
      simp only at this ⊢
      rw [hmethod, hcount, ← hslots]
      exact this)
    simp only at hextra hmax
    refine ⟨draft.parameterCount, extra, code ++ Draft.implicitReturn, hcount, ?_, ?_, ?_⟩
    · rw [← hmethod, hextra]
      exact hmax
    · simp [hmethod, hret]
    · rw [← hmethod, hextra, SubroutineOf.completed, if_neg hret, Stmt.skeletons_append]
      exact ⟨_, code, [.pushNothing], by simp [Stmt.skeletons, Stmt.skeleton], rfl,
        h.shaped.grow hrv (Nat.le_refl _), .one rfl rfl trivial⟩

end

end Lss
