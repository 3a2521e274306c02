import Lss.Proofs.Unmarked

/-!
# Bodies lowered with and without line numbers

The option to mark lines reaches code through the marks alone. So two runs of lowering from one
pool, with the option and without it, end in one pool, with the same scopes and with code that
differs by marks and by the distances over them.
-/
namespace Lss

namespace Code

def Twinned (a b : Code) : Prop :=
  ∀ x y : Code, x.length = y.unmarked.length → Rows (x ++ a) (y ++ b) x y a b

variable {up up' x y a b c d : Code}

theorem rows_plain (h : Plain a) : Rows up up' x y a a := by
  induction a generalizing x y with
  | nil => exact .nil
  | cons i a ih =>
    obtain ⟨hi, ha⟩ := plain_cons.mp h
    refine .cons ⟨Instruction.matches_self hi, Instruction.not_isMark_of_isPlain hi, ?_⟩ (ih ha)
    intro kind d _ hbranch
    exact absurd hbranch (Instruction.not_branch_of_isPlain hi kind d)

/-- Branches that lead to corresponding places, in front of other code. -/
theorem Rows.branch {kind : BranchKind} {e e' : Int16} {u v : Code} (hu : u <+: up) (hv : v <+: up')
    (hlength : u.length = (unmarked v).length) (hsize : (size u : Int) = size x + 3 + e.toInt)
    (hsize' : (size v : Int) = size y + 3 + e'.toInt)
    (h : Rows up up' (x ++ [Instruction.branch kind e]) (y ++ [Instruction.branch kind e']) a b) :
    Rows up up' x y (.branch kind e :: a) (.branch kind e' :: b) := by
  refine .cons ⟨rfl, rfl, fun kind' f f' hf hf' => ?_⟩ h
  cases hf
  cases hf'
  exact ⟨u, v, hu, hv, hlength, hsize, hsize'⟩

theorem Twinned.plain (h : Plain a) : Twinned a a := fun _ _ _ => rows_plain h

theorem Twinned.length_eq (h : Twinned a b) : a.length = b.unmarked.length :=
  (h [] [] rfl).length_eq

theorem Twinned.append (h : Twinned a b) (k : Twinned c d) : Twinned (a ++ c) (b ++ d) := by
  intro x y hxy
  have hlength : (x ++ a).length = (unmarked (y ++ b)).length := by
    simp [hxy, h.length_eq]
  have hfirst := (h x y hxy).mono (List.prefix_append (x ++ a) c) (List.prefix_append (y ++ b) d)
  have hsecond := k (x ++ a) (y ++ b) hlength
  rw [List.append_assoc, List.append_assoc] at hfirst hsecond
  exact hfirst.append hsecond

theorem Twinned.mark (line : UInt16) : Twinned [] [.lineNumber line] :=
  fun _ _ _ => .mark line .nil

/-- A part of code in its place. -/
theorem Twinned.rows (h : Twinned a b) (hxy : x.length = y.unmarked.length) (hup : x ++ a <+: up)
    (hup' : y ++ b <+: up') : Rows up up' x y a b :=
  (h x y hxy).mono hup hup'

section

variable {test body body' arm arm' : Code} {span span' : Span}

theorem Twinned.if_ {e e' : Int16} (htest : Plain test) (hbody : Twinned body body')
    (he : Branch.forward body span = .ok e) (he' : Branch.forward body' span' = .ok e') :
    Twinned (test ++ .branch .ifFalse e :: body) (test ++ .branch .ifFalse e' :: body') := by
  intro x y hxy
  have he := Branch.toInt_forward he
  have he' := Branch.toInt_forward he'
  have hlength := hbody.length_eq
  have htest' := htest.unmarked_eq
  refine (rows_plain htest).append (.branch (List.prefix_refl _) (List.prefix_refl _) ?_ ?_ ?_
    (hbody.rows ?_ (by simp) (by simp)))
  · simp [hxy, hlength, htest']
  · simp [he]
    omega
  · simp [he']
    omega
  · simp [hxy, htest']

theorem Twinned.ifElse {e e' f f' : Int16} (htest : Plain test) (hbody : Twinned body body')
    (harm : Twinned arm arm')
    (he : Branch.forward (body ++ [Instruction.branch .always 0]) span = .ok e)
    (he' : Branch.forward (body' ++ [Instruction.branch .always 0]) span = .ok e')
    (hf : Branch.forward arm span' = .ok f) (hf' : Branch.forward arm' span' = .ok f') :
    Twinned (test ++ .branch .ifFalse e :: body ++ .branch .always f :: arm)
      (test ++ .branch .ifFalse e' :: body' ++ .branch .always f' :: arm') := by
  intro x y hxy
  have he := Branch.toInt_forward he
  have he' := Branch.toInt_forward he'
  have hf := Branch.toInt_forward hf
  have hf' := Branch.toInt_forward hf'
  have hlength := hbody.length_eq
  have htest' := htest.unmarked_eq
  rw [List.append_assoc, List.append_assoc, List.cons_append, List.cons_append]
  -- the first branch leads behind the second
  refine (rows_plain htest).append (.branch
    (u := x ++ test ++ .branch .ifFalse e :: body ++ [Instruction.branch .always f])
    (v := y ++ test ++ .branch .ifFalse e' :: body' ++ [Instruction.branch .always f'])
    (by simp) (by simp) ?_ ?_ ?_ ?_)
  · simp [hxy, hlength, htest']
  · simp [he]
    omega
  · simp [he']
    omega
  refine (hbody.rows ?_ (by simp) (by simp)).append (.branch (List.prefix_refl _)
    (List.prefix_refl _) ?_ ?_ ?_ (harm.rows ?_ (by simp) (by simp)))
  · simp [hxy, htest']
  · simp [hxy, hlength, htest', harm.length_eq]
  · simp [hf]
    omega
  · simp [hf']
    omega
  · simp [hxy, hlength, htest']

theorem Twinned.loop {loop loop' : Code} (htest : Plain test) (hbody : Twinned body body')
    (h : loopCode test body span = .ok loop) (h' : loopCode test body' span' = .ok loop') :
    Twinned loop loop' := by
  obtain ⟨e, f, he, hf, rfl⟩ := loopCode_eq_ok.mp h
  obtain ⟨e', f', he', hf', rfl⟩ := loopCode_eq_ok.mp h'
  intro x y hxy
  have he := Branch.toInt_forward he
  have he' := Branch.toInt_forward he'
  have hf := Branch.toInt_backward hf
  have hf' := Branch.toInt_backward hf'
  have hlength := hbody.length_eq
  have htest' := htest.unmarked_eq
  simp only [Code.size_append, Code.size_cons, Instruction.size_branch,
    Code.size_nil] at he he' hf hf'
  rw [List.append_assoc, List.append_assoc, List.cons_append, List.cons_append]
  refine (rows_plain htest).append (.branch (List.prefix_refl _) (List.prefix_refl _) ?_ ?_ ?_
    ((hbody.rows ?_ (by simp) (by simp)).append (.branch (u := x) (v := y) (by simp) (by simp) hxy
      ?_ ?_ .nil)))
  · simp [hxy, hlength, htest']
  · simp [he]
    omega
  · simp [he']
    omega
  · simp [hxy, htest']
  · simp [hf]
    omega
  · simp [hf']
    omega

theorem Twinned.doWhile {e e' : Int16} (htest : Plain test) (hbody : Twinned body body')
    (he : Branch.backward (body ++ test) span = .ok e)
    (he' : Branch.backward (body' ++ test) span' = .ok e') :
    Twinned (body ++ test ++ [Instruction.branch .ifTrue e])
      (body' ++ test ++ [Instruction.branch .ifTrue e']) := by
  intro x y hxy
  have he := Branch.toInt_backward he
  have he' := Branch.toInt_backward he'
  simp only [Code.size_append] at he he'
  rw [List.append_assoc, List.append_assoc]
  refine (hbody.rows hxy (by simp) (by simp)).append ((rows_plain htest).append
    (.branch (u := x) (v := y) (by simp) (by simp) hxy ?_ ?_ .nil))
  · simp [he]
    omega
  · simp [he']
    omega

end

end Code

end Lss
