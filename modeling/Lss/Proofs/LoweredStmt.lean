import Lss.Proofs.Kept
import Lss.Proofs.LoweredExpr

/-!
# Code of statements

Every statement that compiles gives structured code with the statement's own skeleton, and a
subroutine gives a prologue, then statements that end in a `return`.
-/
namespace Lss

open Lower

namespace Branch

theorem toInt_distance? {n : Nat} {d : Int16} (h : distance? n = some d) :
    d.toInt = n ∧ n < 0x8000 := by
  unfold distance? at h
  split at h
  · next hn =>
    cases h
    exact ⟨Int16.toInt_ofInt_of_le (by omega) (by omega), hn⟩
  · cases h

theorem toInt_forward {code : Code} {span : Span} {d : Int16} (h : forward code span = .ok d) :
    d.toInt = Code.size code := by
  unfold forward at h
  split at h
  · next hd =>
    cases h
    exact (toInt_distance? hd).1
  · cases h

theorem toInt_backward {code : Code} {span : Span} {d : Int16} (h : backward code span = .ok d) :
    d.toInt = -(Code.size code + 3) := by
  unfold backward at h
  split at h
  · next e he =>
    cases h
    obtain ⟨heq, hlt⟩ := toInt_distance? he
    have hsize : Branch.size = 3 := rfl
    rw [hsize] at heq hlt
    rw [Int16.toInt_neg, heq, Int.bmod_eq_of_le (by omega) (by omega)]
    push_cast
    rfl
  · cases h

end Branch

theorem Env.Sound.mono {env : Env} {n m : Nat} (h : env.Sound n) (hn : n ≤ m) : env.Sound m :=
  ⟨h.globals, fun ho => Nat.lt_of_lt_of_le (h.this ho) hn⟩

def Statements (env : Env) (n : Nat) (q : Pool) (sk : List Skeleton) (code : Code) : Prop :=
  Shaped (Instruction.Fits (q.limits env n)) sk code

section

variable {env : Env} {n m : Nat} {p q : Pool}

theorem Statements.grow {sk : List Skeleton} {code : Code} (h : Statements env n p sk code)
    (hpq : p.Extends q) (hn : n ≤ m) : Statements env m q sk code :=
  Shaped.imp (Instruction.Fits.mono (hpq.below env hn)) h

theorem Statements.append {a b : List Skeleton} {x y : Code} (hx : Statements env n q a x)
    (hy : Statements env n q b y) : Statements env n q (a ++ b) (x ++ y) :=
  Shaped.append hx hy

theorem Statements.reverse_append {a b : List Skeleton} {acc code : Code}
    (hx : Statements env n q a acc.reverse) (hy : Statements env n q b code) :
    Statements env n q (a ++ b) (code.reverse ++ acc).reverse := by
  rw [List.reverse_append, List.reverse_reverse]
  exact hx.append hy

theorem Values.store {k : Nat} {code : Code} {i : Instruction} (h : Values env n q k code)
    (hi : i.isStore) (ht : i.takes = k) (hf : i.Fits (q.limits env n)) :
    Statements env n q [.assign] (code ++ [i]) := by
  subst ht
  exact Shaped.store h hi hf

theorem lineMark_shaped (env : Env) (s : Stmt) : Statements env n q [] (lineMark env s) := by
  unfold lineMark
  split
  · exact .mark _
  · exact .nil

/-- A loop that tests first closes over its test and its body. -/
theorem loopCode_shaped {test body code : Code} {span : Span} {sk : List Skeleton}
    (ht : Values env n q 1 test) (hb : Statements env n q sk body)
    (h : loopCode test body span = .ok code) : Statements env n q [.while_ sk] code := by
  unfold loopCode at h
  cases hback : Branch.backward (test ++ .branch .ifFalse 0 :: body) span with
  | error e =>
    rw [hback] at h
    cases h
  | ok back =>
    cases hout : Branch.forward (body ++ [Instruction.branch .always back]) span with
    | error e =>
      rw [hback] at h
      simp only [bind, Except.bind, hout] at h
      cases h
    | ok out =>
      rw [hback] at h
      simp only [bind, Except.bind, hout, pure, Except.pure, Except.ok.injEq] at h
      subst h
      refine Shaped.while_ ht hb ?_ ?_
      · rw [Branch.toInt_forward hout]
        simp
      · rw [Branch.toInt_backward hback]
        simp only [Code.size_append, Code.size_cons, Instruction.size_branch]
        omega

end

/-- The loop over a collection: two assignments, then a loop that counts. -/
theorem foreachCode_shaped {env : Env} {n : Nat} {q : Pool} {i m : Slot} {items code loop : Code}
    {span : Span} {sk : List Skeleton} (hi : i.Fits (q.limits env n)) (hm : m.Fits (q.limits env n))
    (hitems : Values env n q 1 items) (hcode : Statements env n q sk code)
    (h : loopCode [.getVariable m, .getVariable i, .binary .greaterEqual]
      (code ++ [Instruction.getVariable i, .pushInt8 1, .binary .add, .setVariable i]) span
        = .ok loop) :
    Statements env n q [.assign, .assign, .while_ (sk ++ [Skeleton.assign])]
      ([Instruction.pushZero, .setVariable i] ++ items
        ++ [Instruction.property .length, .pushInt8 1, .binary .sub, .setVariable m] ++ loop) := by
  have hgeti : Values env n q 1 [.getVariable i] := .one rfl rfl hi
  have hgetm : Values env n q 1 [.getVariable m] := .one rfl rfl hm
  have hone : Values env n q 1 [.pushInt8 1] := .one rfl rfl trivial
  have hzero : Values env n q 1 [.pushZero] := .one rfl rfl trivial
  have hstart : Statements env n q [.assign] [.pushZero, .setVariable i] := hzero.store rfl rfl hi
  have hlength : Values env n q 1 (items ++ [Instruction.property .length]) :=
    hitems.apply rfl rfl trivial
  have hlast := ((hlength.append hone).apply (i := .binary .sub) rfl rfl trivial).store
    (i := .setVariable m) rfl rfl hm
  have hadvance := ((hgeti.append hone).apply (i := .binary .add) rfl rfl trivial).store
    (i := .setVariable i) rfl rfl hi
  have htest := (hgetm.append hgeti).apply (i := .binary .greaterEqual) rfl rfl trivial
  have hloop := loopCode_shaped htest (hcode.append hadvance) h
  simpa [List.append_assoc] using (hstart.append hlast).append hloop

/-- What lowering in `scopes` gives: code of that skeleton, and scopes that only grew. -/
structure Lowers (env : Env) (scopes : Scopes) (q : Pool) (sk : List Skeleton) (r : Lowered) :
    Prop where
  sound : r.2.Sound
  grows : scopes.slotCount ≤ r.2.slotCount
  shaped : Statements env r.2.slotCount q sk r.1

section

variable {env : Env} {scopes : Scopes} {p q : Pool}

theorem Lowers.here (hs : scopes.Sound) {sk : List Skeleton} {code : Code}
    (h : Statements env scopes.slotCount q sk code) : Lowers env scopes q sk (code, scopes) :=
  ⟨hs, Nat.le_refl _, h⟩

theorem Lowers.marked {sk : List Skeleton} {r : Lowered} (h : Lowers env scopes q sk r)
    (s : Stmt) : Lowers env scopes q sk (marked env s r) :=
  ⟨h.sound, h.grows, (lineMark_shaped env s).append h.shaped⟩

theorem assignedSlot_meets (henv : env.Sound scopes.slotCount) (hs : scopes.Sound) (t : Token) :
    Meets p (assignedSlot env scopes t) fun q s => s.Fits (q.limits env scopes.slotCount) := by
  unfold assignedSlot
  split
  · next i hi =>
    obtain ⟨frame, -, hi⟩ := Option.bind_eq_some_iff.mp hi
    exact .pure (Or.inl ⟨i, rfl, hs.resolveFrom hi⟩)
  · exact .throw
  · exact (readGlobal_meets henv.globals t p).imp fun _ _ _ h => Or.inr h

theorem lowerAssign_meets (henv : env.Sound scopes.slotCount) (hs : scopes.Sound)
    (target value : Expr) :
    Meets p (lowerAssign env scopes target value) fun q =>
      Statements env scopes.slotCount q [.assign] := by
  rw [← assignOver_lower]
  refine (assignOver_meets (R := fun _ => True) (straight_values henv) (readName_meets henv hs)
    (fun t p => (assignedSlot_meets henv hs t).imp fun _ _ _ h => ⟨h, trivial⟩) target value).imp ?_
  rintro q _ - ⟨x, i, rfl, hx, hi, hfits, -⟩
  exact Values.store hx hi rfl hfits

/-- The value of a declaration is computed before its name is there. -/
theorem declare_meets (hs : scopes.Sound) (name : Token) {v : Code}
    (hv : Values env scopes.slotCount p 1 v) :
    Meets p (match scopes.declare name.text with
      | some (slot, scopes) => pure (v ++ [Instruction.setVariable (.ofLocal slot)], scopes)
      | none => throw (.duplicateVariable name.text name.span) : Lower Lowered)
      fun q => Lowers env scopes q [.assign] := by
  split
  · next slot u hd =>
    obtain ⟨hu, hcount, hslot⟩ := hs.declare hd
    have hle : scopes.slotCount ≤ u.slotCount := by omega
    refine .pure ⟨hu, hle, ?_⟩
    exact (hv.grow (.refl p) hle).store rfl rfl (Or.inl ⟨slot, rfl, hslot⟩)
  · exact .throw

theorem lowerVar_meets (henv : env.Sound scopes.slotCount) (hs : scopes.Sound) (name : Token)
    (init : Option Expr) :
    Meets p (lowerVar env scopes name init) fun q => Lowers env scopes q [.assign] := by
  cases init with
  | none => exact declare_meets (v := [.pushNothing]) hs name (.one rfl rfl trivial)
  | some e => exact .bind (lower_meets henv hs e p) fun _ _ _ hv => declare_meets hs name hv

theorem lowerReturn_meets (henv : env.Sound scopes.slotCount) (hs : scopes.Sound) {s : Stmt}
    (h : s.isReturn) :
    Meets p (lowerStmt env scopes s) fun q r =>
      r.2 = scopes ∧ ∃ v, r.1 = v ++ [Instruction.return_] ∧ Values env scopes.slotCount q 1 v := by
  cases s with
  | return_ value span =>
    cases value with
    | none =>
      simp only [lowerStmt]
      exact .pure ⟨rfl, [.pushNothing], rfl, .one rfl rfl trivial⟩
    | some e =>
      simp only [lowerStmt]
      refine .bind (lower_meets henv hs e p) fun q v _ hv => ?_
      exact .pure ⟨rfl, v, rfl, hv⟩
  | _ => cases h

/-! Statements that hold others. -/

/-- Wherever it is lowered, a statement gives code of its own skeleton. -/
def Stmt.Shapes (env : Env) (s : Stmt) : Prop :=
  ∀ (scopes : Scopes) (p : Pool), env.Sound scopes.slotCount → scopes.Sound →
    Meets p (lowerStmt env scopes s) fun q => Lowers env scopes q s.skeleton

theorem Stmt.Shapes.marked {s : Stmt} (h : s.Shapes env) (henv : env.Sound scopes.slotCount)
    (hs : scopes.Sound) :
    Meets p (marked env s <$> lowerStmt env scopes s) fun q => Lowers env scopes q s.skeleton :=
  .map ((h scopes p henv hs).imp fun _ _ _ hr => hr.marked s)

section

variable {body : Stmt} (hbody : body.Shapes env)
include hbody

theorem if_meets (test : Expr) (span : Span) :
    (Stmt.if_ (some test) body none span).Shapes env := by
  intro scopes p henv hs
  simp only [lowerStmt, Stmt.skeleton]
  refine .bind (lower_meets henv hs test p) fun q code _ ht => ?_
  refine .bind (hbody.marked henv hs) ?_
  rintro r ⟨code, u⟩ hqr hb
  refine .bind (.ofExcept _) fun v skip hrv hskip => .pure ?_
  have ht := ht.grow (hqr.trans hrv) hb.grows
  have hcode := hb.shaped.grow hrv (Nat.le_refl _)
  exact ⟨hb.sound, hb.grows, Shaped.if_ ht hcode (Branch.toInt_forward hskip)⟩

theorem ifElse_meets {arm : Stmt} (harm : arm.Shapes env) (test : Expr) (span : Span) :
    (Stmt.if_ (some test) body (some arm) span).Shapes env := by
  intro scopes p henv hs
  simp only [lowerStmt, Stmt.skeleton]
  refine .bind (lower_meets henv hs test p) fun q code _ ht => ?_
  refine .bind (hbody.marked henv hs) ?_
  rintro r ⟨code, u⟩ hqr hb
  refine .bind (.ofExcept _) fun v skip hrv hskip => ?_
  refine .bind (harm.marked (henv.mono hb.grows) hb.sound) ?_
  rintro w ⟨armCode, u'⟩ hvw harm
  refine .bind (.ofExcept _) fun x past hwx hpast => .pure ?_
  have hgrows := Nat.le_trans hb.grows harm.grows
  have hrx := (hrv.trans hvw).trans hwx
  have ht := ht.grow (hqr.trans hrx) hgrows
  have hcode := hb.shaped.grow hrx harm.grows
  have hskip : skip.toInt = Code.size code + 3 := by
    rw [Branch.toInt_forward hskip]
    simp
  refine ⟨harm.sound, hgrows, ?_⟩
  exact Shaped.ifElse ht hcode (harm.shaped.grow hwx (Nat.le_refl _)) hskip
    (Branch.toInt_forward hpast)

theorem while_meets (test : Expr) : (Stmt.while_ test body).Shapes env := by
  intro scopes p henv hs
  simp only [lowerStmt, Stmt.skeleton]
  refine .bind (lower_meets henv hs test p) fun q code _ ht => ?_
  refine .bind (hbody.marked henv hs) ?_
  rintro r ⟨code, u⟩ hqr hb
  refine .bind (.ofExcept _) fun v loop hrv hloop => .pure ?_
  refine ⟨hb.sound, hb.grows, ?_⟩
  exact loopCode_shaped (ht.grow (hqr.trans hrv) hb.grows) (hb.shaped.grow hrv (Nat.le_refl _))
    hloop

theorem doWhile_meets (test : Expr) : (Stmt.doWhile body test).Shapes env := by
  intro scopes p henv hs
  simp only [lowerStmt, Stmt.skeleton]
  refine .bind (hbody.marked henv hs) ?_
  rintro q ⟨code, u⟩ - hb
  refine .bind (lower_meets (henv.mono hb.grows) hb.sound test q) fun r code hqr ht => ?_
  refine .bind (.ofExcept _) fun v back hrv hback => .pure ?_
  have hback := Branch.toInt_backward hback
  rw [Code.size_append] at hback
  have hcode := hb.shaped.grow (hqr.trans hrv) (Nat.le_refl _)
  exact ⟨hb.sound, hb.grows, Shaped.doWhile hcode (ht.later hrv) (by omega)⟩

/-- The two hidden slots of a loop over a collection are new, and the body is lowered where its
element is read through the first of them. -/
theorem foreach_meets (element : Token) (collection : Expr) :
    (Stmt.foreach element collection body).Shapes env := by
  intro scopes p henv hs
  obtain ⟨hs', hcount', hslot'⟩ := hs.enter.declareHidden "index"
  simp only [lowerStmt, Stmt.skeleton]
  generalize scopes.enter.declareHidden "index" = first at hs' hcount' hslot' ⊢
  obtain ⟨index, inner⟩ := first
  obtain ⟨hs'', hcount'', hslot''⟩ := hs'.declareHidden "max"
  generalize inner.declareHidden "max" = second at hs'' hcount'' hslot'' ⊢
  obtain ⟨last, inside⟩ := second
  simp only [Scopes.slotCount_enter] at hs' hcount' hslot' hs'' hcount'' hslot''
  have henv' : env.Sound inside.slotCount := henv.mono (by omega)
  refine .bind (lower_meets henv' hs'' collection p) fun q items _ hitems => ?_
  split
  · exact .throw
  split
  · exact .throw
  next _ frame _ _ u hbind =>
  have hindex : (Slot.ofLocal index).index.toNat < inside.slotCount := by
    have := (Slot.ofLocal index).toNat_index_le
    simp only [Slot.ofLocal] at this ⊢
    omega
  obtain ⟨hu, hcount⟩ := hs''.bind
    (v := .element collection (Slot.ofLocal index).index frame) hindex hbind
  have henvu : env.Sound u.slotCount := by
    rw [hcount]
    exact henv'
  refine .bind (hbody.marked henvu hu) ?_
  rintro r ⟨code, w⟩ hqr hb
  refine .bind (.ofExcept _) fun v loop hrv hloop => .pure ?_
  have hgrows : inside.slotCount ≤ w.slotCount := by
    rw [← hcount]
    exact hb.grows
  have hi : (Slot.ofLocal index).Fits (v.limits env w.slotCount) :=
    Or.inl ⟨index, rfl, by show index.toNat < w.slotCount; omega⟩
  have hm : (Slot.ofLocal last).Fits (v.limits env w.slotCount) :=
    Or.inl ⟨last, rfl, by show last.toNat < w.slotCount; omega⟩
  refine ⟨hb.sound.exit, by show scopes.slotCount ≤ w.slotCount; omega, ?_⟩
  exact foreachCode_shaped hi hm (hitems.grow (hqr.trans hrv) hgrows)
    (hb.shaped.grow hrv (Nat.le_refl _)) hloop

end

mutual

/-- Every statement that compiles gives code of its own skeleton. -/
theorem lowerStmt_meets (env : Env) :
    ∀ (s : Stmt) (scopes : Scopes) (p : Pool), env.Sound scopes.slotCount → scopes.Sound →
      Meets p (lowerStmt env scopes s) fun q => Lowers env scopes q s.skeleton
  | .block ⟨body, span⟩, scopes, p, henv, hs => by
    simp only [lowerStmt, Stmt.skeleton]
    refine .bind (lowerStmts_meets env body [] [] scopes.enter p henv hs.enter .nil) ?_
    rintro q ⟨code, u⟩ - h
    exact .pure ⟨h.sound.exit, h.grows, h.shaped⟩
  | .expr e, scopes, p, henv, hs => by
    simp only [lowerStmt, Stmt.skeleton]
    exact .bind (lower_meets henv hs e p) fun q v _ hv => .pure (.here hs (Shaped.drop hv))
  | .var name init, scopes, p, henv, hs => by
    simp only [lowerStmt, Stmt.skeleton]
    exact lowerVar_meets henv hs name init
  | .assign target value, scopes, p, henv, hs => by
    simp only [lowerStmt, Stmt.skeleton]
    exact .bind (lowerAssign_meets henv hs target value) fun q code _ h => .pure (.here hs h)
  | .return_ value span, scopes, p, henv, hs => by
    refine (lowerReturn_meets henv hs (s := .return_ value span) rfl).imp ?_
    rintro q ⟨code, u⟩ - ⟨rfl, v, rfl, hv⟩
    simp only [Stmt.skeleton]
    exact .here hs (Shaped.return_ hv)
  | .if_ none body _ _, scopes, p, henv, hs => by
    simp only [lowerStmt, Stmt.skeleton]
    exact Stmt.Shapes.marked (lowerStmt_meets env body) henv hs
  | .if_ (some test) body none span, scopes, p, henv, hs =>
    if_meets (lowerStmt_meets env body) test span scopes p henv hs
  | .if_ (some test) body (some arm) span, scopes, p, henv, hs =>
    ifElse_meets (lowerStmt_meets env body) (lowerStmt_meets env arm) test span scopes p henv hs
  | .while_ test body, scopes, p, henv, hs =>
    while_meets (lowerStmt_meets env body) test scopes p henv hs
  | .doWhile body test, scopes, p, henv, hs =>
    doWhile_meets (lowerStmt_meets env body) test scopes p henv hs
  | .foreach element collection body, scopes, p, henv, hs =>
    foreach_meets (lowerStmt_meets env body) element collection scopes p henv hs
  | .classDecl _, _, _, _, _ | .property _, _, _, _, _ | .subroutine _, _, _, _, _
  | .global _, _, _, _, _ => by
    simp only [lowerStmt]
    exact .throw

theorem lowerStmts_meets (env : Env) :
    ∀ (ss : List Stmt) (sk : List Skeleton) (acc : Code) (scopes : Scopes) (p : Pool),
      env.Sound scopes.slotCount → scopes.Sound →
      Statements env scopes.slotCount p sk acc.reverse →
      Meets p (lowerStmts env acc scopes ss) fun q =>
        Lowers env scopes q (sk ++ Stmt.skeletons ss)
  | [], sk, acc, scopes, p, _, hs, hacc => by
    simp only [lowerStmts, Stmt.skeletons, List.append_nil]
    exact .pure (.here hs hacc)
  | s :: ss, sk, acc, scopes, p, henv, hs, hacc => by
    simp only [lowerStmts, Stmt.skeletons]
    refine .bind (Stmt.Shapes.marked (lowerStmt_meets env s) henv hs) ?_
    rintro q ⟨code, u⟩ hpq h
    have hacc := (hacc.grow hpq h.grows).reverse_append h.shaped
    refine (lowerStmts_meets env ss (sk ++ s.skeleton) (code.reverse ++ acc) u q
      (henv.mono h.grows) h.sound hacc).imp fun r l _ hl => ?_
    rw [List.append_assoc] at hl
    exact ⟨hl.sound, Nat.le_trans h.grows hl.grows, hl.shaped⟩

end

end

end Lss
