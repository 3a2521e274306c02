import Mathlib.Algebra.GroupWithZero.Nat
import Mathlib.Data.Bool.Basic
import Lss.Proofs.Rewritten
import Lss.Lifting.Tidy

/-!
# Mentions of locals

How often a tree mentions a local, by one walk over all its expressions. Putting other names for
parts of a tree adds no mention.
-/
namespace Lss

/-! Folds that agree. -/

section

variable {β γ : Type} {f : β → Expr → β} {g : γ → Expr → γ} {h : β → γ}

mutual

/-- What connects two steps connects the folds. -/
theorem Expr.fold_hom (hfg : ∀ b e, h (f b e) = g (h b) e) :
    (e : Expr) → (b : β) → h (e.fold f b) = e.fold g (h b)
  | .grouping e, b => by rw [fold, fold, fold_hom hfg e, hfg]
  | .unary _ e _, b => by rw [fold, fold, fold_hom hfg e, hfg]
  | .binary l _ r, b => by rw [fold, fold, fold_hom hfg r, fold_hom hfg l, hfg]
  | .index a i _, b => by rw [fold, fold, fold_hom hfg i, fold_hom hfg a, hfg]
  | .array es _, b => by rw [fold, fold, foldAll_hom hfg es, hfg]
  | .call t es _, b => by rw [fold, fold, foldAll_hom hfg es, fold_hom hfg t, hfg]
  | .construct _ (some es) _, b => by rw [fold, fold, foldAll_hom hfg es, hfg]
  | .construct _ none _, b | .literal _, b | .variable _, b | .pending _, b => by
    rw [fold, fold, hfg]

theorem Expr.foldAll_hom (hfg : ∀ b e, h (f b e) = g (h b) e) :
    (es : List Expr) → (b : β) → h (Expr.foldAll f b es) = Expr.foldAll g (h b) es
  | [], _ => rfl
  | e :: es, b => by rw [foldAll, foldAll, foldAll_hom hfg es, fold_hom hfg e]

end

mutual

theorem Stmt.fold_hom (hfg : ∀ b e, h (f b e) = g (h b) e) :
    (s : Stmt) → (b : β) → h (s.fold f b) = s.fold g (h b)
  | .block ⟨body, _⟩, b => by rw [fold, fold, foldAll_hom hfg body]
  | .expr e, b | .return_ (some e) _, b | .var _ (some e), b => by
    rw [fold, fold, Expr.fold_hom hfg e]
  | .if_ (some c) body (some arm) _, b => by
    simp only [fold, Option.map_some, Option.getD_some, Expr.fold_hom hfg c, fold_hom hfg body,
      fold_hom hfg arm]
  | .if_ (some c) body none _, b => by
    simp only [fold, Option.map_some, Option.getD_some, Expr.fold_hom hfg c, fold_hom hfg body]
  | .if_ none body (some arm) _, b => by
    simp only [fold, Option.map_none, Option.getD_none, fold_hom hfg body, fold_hom hfg arm]
  | .if_ none body none _, b => by
    simp only [fold, Option.map_none, Option.getD_none, fold_hom hfg body]
  | .while_ c body, b | .foreach _ c body, b => by
    rw [fold, fold, fold_hom hfg body, Expr.fold_hom hfg c]
  | .doWhile body c, b => by rw [fold, fold, Expr.fold_hom hfg c, fold_hom hfg body]
  | .assign t v, b => by rw [fold, fold, Expr.fold_hom hfg v, Expr.fold_hom hfg t]
  | .return_ none _, b | .var _ none, b | .classDecl _, b | .property _, b | .subroutine _, b
  | .global _, b => by rw [fold, fold]

theorem Stmt.foldAll_hom (hfg : ∀ b e, h (f b e) = g (h b) e) :
    (ss : List Stmt) → (b : β) → h (Stmt.foldAll f b ss) = Stmt.foldAll g (h b) ss
  | [], _ => rfl
  | s :: ss, b => by rw [foldAll, foldAll, foldAll_hom hfg ss, fold_hom hfg s]

end

end

/-! Mentions of a local, counted. -/

def tallyStep (x : String) (n : Nat) (e : Expr) : Nat := n + (e.isPlaceholder x).toNat

def Expr.tally (x : String) (e : Expr) : Nat := e.fold (tallyStep x) 0

def Stmt.tally (x : String) (s : Stmt) : Nat := s.fold (tallyStep x) 0

def Stmt.tallyAll (x : String) (ss : List Stmt) : Nat := Stmt.foldAll (tallyStep x) 0 ss

section

variable {x : String}

theorem tallyStep_add (n m : Nat) (e : Expr) : n + tallyStep x m e = tallyStep x (n + m) e := by
  unfold tallyStep
  omega

theorem Expr.fold_tally (e : Expr) (n : Nat) : e.fold (tallyStep x) n = n + e.tally x :=
  (Expr.fold_hom (tallyStep_add n) e 0).symm

theorem Expr.foldAll_tally (es : List Expr) (n : Nat) :
    Expr.foldAll (tallyStep x) n es = n + (es.map (·.tally x)).sum := by
  induction es generalizing n with
  | nil => rfl
  | cons e es ih =>
    rw [Expr.foldAll, ih, Expr.fold_tally, List.map_cons, List.sum_cons]
    omega

theorem Stmt.fold_tally (s : Stmt) (n : Nat) : s.fold (tallyStep x) n = n + s.tally x :=
  (Stmt.fold_hom (tallyStep_add n) s 0).symm

theorem Stmt.foldAll_tally (ss : List Stmt) (n : Nat) :
    Stmt.foldAll (tallyStep x) n ss = n + Stmt.tallyAll x ss :=
  (Stmt.foldAll_hom (tallyStep_add n) ss 0).symm

/-- The local is mentioned where the count is positive. -/
theorem Stmt.anyExpr_isPlaceholder (x : String) (ss : List Stmt) :
    Stmt.anyExpr (·.isPlaceholder x) ss = decide (0 < Stmt.tallyAll x ss) := by
  refine (Stmt.foldAll_hom (h := fun n => decide (0 < n)) (fun n e => ?_) ss 0).symm
  unfold tallyStep
  cases h : e.isPlaceholder x <;> simp [h]

theorem Stmt.anyExpr_or (p q : Expr → Bool) (ss : List Stmt) :
    Stmt.anyExpr (fun e => p e || q e) ss = (Stmt.anyExpr p ss || Stmt.anyExpr q ss) := by
  -- both searches in one walk
  let both (found : Bool × Bool) (e : Expr) : Bool × Bool := (found.1 || p e, found.2 || q e)
  have hleft := Stmt.foldAll_hom (f := both) (h := Prod.fst)
    (g := fun found e => found || p e) (fun _ _ => rfl) ss (false, false)
  have hright := Stmt.foldAll_hom (f := both) (h := Prod.snd)
    (g := fun found e => found || q e) (fun _ _ => rfl) ss (false, false)
  have hany := Stmt.foldAll_hom (f := both) (h := fun found => found.1 || found.2)
    (g := fun found e => found || (p e || q e)) (fun _ _ => by simp only [both]; grind) ss
    (false, false)
  rw [Stmt.anyExpr, Stmt.anyExpr, Stmt.anyExpr, ← hleft, ← hright]
  exact hany.symm

@[simp] theorem Stmt.tallyAll_nil : Stmt.tallyAll x [] = 0 := rfl

@[simp] theorem Stmt.tallyAll_cons (s : Stmt) (ss : List Stmt) :
    Stmt.tallyAll x (s :: ss) = s.tally x + Stmt.tallyAll x ss := by
  rw [Stmt.tallyAll, Stmt.foldAll, Stmt.foldAll_tally, ← Stmt.tally]

@[simp] theorem Stmt.tally_block (body : List Stmt) (span : Span) :
    (Stmt.block ⟨body, span⟩).tally x = Stmt.tallyAll x body := rfl

@[simp] theorem Stmt.tally_assign (t v : Expr) :
    (Stmt.assign t v).tally x = t.tally x + v.tally x := by
  rw [Stmt.tally, Stmt.fold, Expr.fold_tally, ← Expr.tally]

@[simp] theorem Stmt.tally_while (c : Expr) (body : Stmt) :
    (Stmt.while_ c body).tally x = c.tally x + body.tally x := by
  rw [Stmt.tally, Stmt.fold, Stmt.fold_tally, ← Expr.tally]

@[simp] theorem Stmt.tally_doWhile (body : Stmt) (c : Expr) :
    (Stmt.doWhile body c).tally x = body.tally x + c.tally x := by
  rw [Stmt.tally, Stmt.fold, Expr.fold_tally, ← Stmt.tally]

@[simp] theorem Stmt.tally_foreach (t : Token) (c : Expr) (body : Stmt) :
    (Stmt.foreach t c body).tally x = c.tally x + body.tally x := by
  rw [Stmt.tally, Stmt.fold, Stmt.fold_tally, ← Expr.tally]

/-- A condition counts where there is one. -/
@[simp] theorem Stmt.tally_if (c : Option Expr) (body : Stmt) (span : Span) :
    (Stmt.if_ c body none span).tally x = ((c.map (·.tally x)).getD 0) + body.tally x := by
  rw [Stmt.tally, Stmt.fold, Stmt.fold_tally]
  rfl

@[simp] theorem Stmt.tally_ifElse (c : Option Expr) (body arm : Stmt) (span : Span) :
    (Stmt.if_ c body (some arm) span).tally x
      = ((c.map (·.tally x)).getD 0) + body.tally x + arm.tally x := by
  rw [Stmt.tally, Stmt.fold]
  simp only [Stmt.fold_tally]
  rfl

theorem Stmt.tallyAll_eq (ss : List Stmt) : Stmt.tallyAll x ss = (ss.map (·.tally x)).sum := by
  induction ss with
  | nil => rfl
  | cons s ss ih => rw [Stmt.tallyAll_cons, ih, List.map_cons, List.sum_cons]

@[simp] theorem Stmt.tallyAll_append (ss ts : List Stmt) :
    Stmt.tallyAll x (ss ++ ts) = Stmt.tallyAll x ss + Stmt.tallyAll x ts := by
  rw [Stmt.tallyAll_eq, Stmt.tallyAll_eq, Stmt.tallyAll_eq, List.map_append, List.sum_append]

end

/-! Replacing parts by other names adds no mentions. -/

section

variable {x : String} {f : Expr → Option Expr}

def Avoids (x : String) (f : Expr → Option Expr) : Prop :=
  ∀ e e', f e = some e' → e'.isPlaceholder x = false ∧ e'.tally x = 0

theorem Avoids.isPlaceholder_getD (hf : Avoids x f) {e e' : Expr}
    (h : ((f e).getD e').isPlaceholder x) : e'.isPlaceholder x := by
  cases hfe : f e with
  | none =>
    rw [hfe] at h
    exact h
  | some v =>
    rw [hfe, Option.getD_some, (hf e v hfe).1] at h
    cases h

theorem Avoids.tally_getD (hf : Avoids x f) (e e' : Expr) :
    ((f e).getD e').tally x ≤ e'.tally x := by
  cases hfe : f e with
  | none => exact Nat.le_refl _
  | some v =>
    rw [Option.getD_some, (hf e v hfe).2]
    exact Nat.zero_le _

/-- A part can only be the local if it was before. -/
theorem Expr.isPlaceholder_replace (hf : Avoids x f) :
    (e : Expr) → (e.replace f).isPlaceholder x → e.isPlaceholder x
  | .grouping e, h => by
    rw [replace] at h
    have h := hf.isPlaceholder_getD h
    exact isPlaceholder_replace hf e h
  | .variable _, h | .unary _ _ _, h | .binary _ _ _, h | .index _ _ _, h | .array _ _, h
  | .call _ _ _, h | .construct _ (some _) _, h | .construct _ none _, h | .literal _, h
  | .pending _, h => by
    rw [replace] at h
    have h := hf.isPlaceholder_getD h
    exact h

theorem Expr.tally_variable (t : Token) :
    (Expr.variable t).tally x = ((Expr.variable t).isPlaceholder x).toNat := by
  rw [tally, fold, tallyStep, Nat.zero_add]

theorem Expr.tally_grouping (e : Expr) :
    (Expr.grouping e).tally x = ((Expr.grouping e).isPlaceholder x).toNat + e.tally x := by
  rw [tally, fold, fold_tally, tallyStep, Nat.zero_add]

theorem Expr.tally_unary (op : Token) (e : Expr) (leads : Bool) :
    (Expr.unary op e leads).tally x = e.tally x := by
  rw [tally, fold, fold_tally]
  exact Nat.zero_add _

theorem Expr.tally_binary (l : Expr) (op : Token) (r : Expr) :
    (Expr.binary l op r).tally x = l.tally x + r.tally x := by
  rw [tally, fold, fold_tally, fold_tally]
  exact congrArg (· + r.tally x) (Nat.zero_add _)

theorem Expr.tally_index (a i : Expr) (span : Span) :
    (Expr.index a i span).tally x = a.tally x + i.tally x := by
  rw [tally, fold, fold_tally, fold_tally]
  exact congrArg (· + i.tally x) (Nat.zero_add _)

theorem Expr.tally_array (es : List Expr) (span : Span) :
    (Expr.array es span).tally x = (es.map (·.tally x)).sum := by
  rw [tally, fold, foldAll_tally]
  exact Nat.zero_add _

theorem Expr.tally_call (t : Expr) (es : List Expr) (span : Span) :
    (Expr.call t es span).tally x = t.tally x + (es.map (·.tally x)).sum := by
  rw [tally, fold, foldAll_tally, fold_tally]
  exact congrArg (· + (es.map (·.tally x)).sum) (Nat.zero_add _)

theorem Expr.tally_construct (t : Token) (es : List Expr) (span : Span) :
    (Expr.construct t (some es) span).tally x = (es.map (·.tally x)).sum := by
  rw [tally, fold, foldAll_tally]
  exact Nat.zero_add _

section

variable {k : Nat}

/-- How often the local can be left where what stands for it is left at most `k` times. -/
def LeavesTimes (x : String) (f : Expr → Option Expr) (k : Nat) : Prop :=
  ∀ e : Expr, ((e.replace f).isPlaceholder x).toNat ≤ k * (e.isPlaceholder x).toNat

mutual

theorem Expr.tally_replace_le_mul (hf : Avoids x f) (hk : LeavesTimes x f k) :
    (e : Expr) → (e.replace f).tally x ≤ k * e.tally x
  | .grouping e => by
    have hself := hk (.grouping e)
    have he := tally_replace_le_mul hf hk e
    cases hfe : f (.grouping e) with
    | none =>
      rw [replace, hfe, Option.getD_none] at hself ⊢
      rw [tally_grouping, tally_grouping, Nat.mul_add]
      exact Nat.add_le_add hself he
    | some v =>
      rw [replace, hfe, Option.getD_some, (hf _ v hfe).2]
      exact Nat.zero_le _
  | .unary op e leads => by
    rw [replace]
    refine Nat.le_trans (hf.tally_getD _ _) ?_
    rw [tally_unary, tally_unary]
    exact tally_replace_le_mul hf hk e
  | .binary l op r => by
    rw [replace]
    refine Nat.le_trans (hf.tally_getD _ _) ?_
    rw [tally_binary, tally_binary, Nat.mul_add]
    exact Nat.add_le_add (tally_replace_le_mul hf hk l) (tally_replace_le_mul hf hk r)
  | .index a i span => by
    rw [replace]
    refine Nat.le_trans (hf.tally_getD _ _) ?_
    rw [tally_index, tally_index, Nat.mul_add]
    exact Nat.add_le_add (tally_replace_le_mul hf hk a) (tally_replace_le_mul hf hk i)
  | .array es span => by
    rw [replace, replaceAll_eq]
    refine Nat.le_trans (hf.tally_getD _ _) ?_
    rw [tally_array, tally_array]
    exact tallyAll_replace_le_mul hf hk es
  | .call t es span => by
    rw [replace, replaceAll_eq]
    refine Nat.le_trans (hf.tally_getD _ _) ?_
    rw [tally_call, tally_call, Nat.mul_add]
    exact Nat.add_le_add (tally_replace_le_mul hf hk t) (tallyAll_replace_le_mul hf hk es)
  | .construct t (some es) span => by
    rw [replace, replaceAll_eq]
    refine Nat.le_trans (hf.tally_getD _ _) ?_
    rw [tally_construct, tally_construct]
    exact tallyAll_replace_le_mul hf hk es
  | .variable t => by
    have hself := hk (.variable t)
    cases hft : f (.variable t) with
    | none =>
      rw [replace, hft, Option.getD_none] at hself ⊢
      rwa [tally_variable]
    | some v =>
      rw [replace, hft, Option.getD_some, (hf _ v hft).2]
      exact Nat.zero_le _
  | .construct _ none _ | .literal _ | .pending _ => by
    rw [replace]
    exact Nat.le_trans (hf.tally_getD _ _) (Nat.zero_le _)

theorem Expr.tallyAll_replace_le_mul (hf : Avoids x f) (hk : LeavesTimes x f k) : (es : List Expr) →
    (((es.map (Expr.replace f))).map (·.tally x)).sum ≤ k * (es.map (·.tally x)).sum
  | [] => Nat.zero_le _
  | e :: es => by
    rw [List.map_cons, List.map_cons, List.map_cons, List.sum_cons, List.sum_cons, Nat.mul_add]
    exact Nat.add_le_add (tally_replace_le_mul hf hk e) (tallyAll_replace_le_mul hf hk es)

end

mutual

theorem Stmt.tally_replace_le_mul (hf : Avoids x f) (hk : LeavesTimes x f k) :
    (s : Stmt) → (s.replace f).tally x ≤ k * s.tally x
  | .block ⟨body, span⟩ => tallyAll_replace_le_mul hf hk body
  | .expr e => e.tally_replace_le_mul hf hk
  | .return_ (some e) _ => e.tally_replace_le_mul hf hk
  | .var _ (some e) => e.tally_replace_le_mul hf hk
  | .if_ none body none span => by
    rw [replace, tally_if, tally_if, Nat.mul_add]
    exact Nat.add_le_add (Nat.zero_le _) (tally_replace_le_mul hf hk body)
  | .if_ (some c) body none span => by
    rw [replace, tally_if, tally_if, Nat.mul_add]
    exact Nat.add_le_add (c.tally_replace_le_mul hf hk) (tally_replace_le_mul hf hk body)
  | .if_ none body (some arm) span => by
    rw [replace, tally_ifElse, tally_ifElse, Nat.mul_add, Nat.mul_add]
    exact Nat.add_le_add (Nat.add_le_add (Nat.zero_le _) (tally_replace_le_mul hf hk body))
      (tally_replace_le_mul hf hk arm)
  | .if_ (some c) body (some arm) span => by
    rw [replace, tally_ifElse, tally_ifElse, Nat.mul_add, Nat.mul_add]
    exact Nat.add_le_add
      (Nat.add_le_add (c.tally_replace_le_mul hf hk) (tally_replace_le_mul hf hk body))
      (tally_replace_le_mul hf hk arm)
  | .while_ c body => by
    rw [replace, tally_while, tally_while, Nat.mul_add]
    exact Nat.add_le_add (c.tally_replace_le_mul hf hk) (tally_replace_le_mul hf hk body)
  | .doWhile body c => by
    rw [replace, tally_doWhile, tally_doWhile, Nat.mul_add]
    exact Nat.add_le_add (tally_replace_le_mul hf hk body) (c.tally_replace_le_mul hf hk)
  | .foreach _ c body => by
    rw [replace, tally_foreach, tally_foreach, Nat.mul_add]
    exact Nat.add_le_add (c.tally_replace_le_mul hf hk) (tally_replace_le_mul hf hk body)
  | .assign t v => by
    rw [replace, tally_assign, tally_assign, Nat.mul_add]
    exact Nat.add_le_add (t.tally_replace_le_mul hf hk) (v.tally_replace_le_mul hf hk)
  | .return_ none _ | .var _ none | .classDecl _ | .property _ | .subroutine _ | .global _ =>
    Nat.zero_le _

theorem Stmt.tallyAll_replace_le_mul (hf : Avoids x f) (hk : LeavesTimes x f k) :
    (ss : List Stmt) → tallyAll x (replaceAll f [] ss) ≤ k * tallyAll x ss
  | [] => Nat.zero_le _
  | s :: ss => by
    have hs := tally_replace_le_mul hf hk s
    have hss := tallyAll_replace_le_mul hf hk ss
    rw [replaceAll_eq] at hss ⊢
    rw [List.map_cons, List.reverse_nil, List.nil_append, tallyAll_cons, tallyAll_cons, Nat.mul_add]
    exact Nat.add_le_add hs hss

end

end

theorem Avoids.leavesOnce (hf : Avoids x f) : LeavesTimes x f 1 := by
  intro e
  rw [Nat.one_mul]
  exact Bool.toNat_le_toNat (e.isPlaceholder_replace hf)

theorem Stmt.tallyAll_replace_le (hf : Avoids x f) (ss : List Stmt) :
    tallyAll x (replaceAll f [] ss) ≤ tallyAll x ss := by
  simpa using tallyAll_replace_le_mul hf hf.leavesOnce ss

/-- Where the local is replaced wherever it stands, it is not mentioned any more. -/
theorem Stmt.tallyAll_replace_eq_zero (hf : Avoids x f)
    (hx : ∀ t, (Expr.variable t).isPlaceholder x → (f (.variable t)).isSome) (ss : List Stmt) :
    tallyAll x (replaceAll f [] ss) = 0 := by
  have hnone : (e : Expr) → (e.replace f).isPlaceholder x = false := by
    intro e
    refine Bool.eq_false_iff.mpr fun h => ?_
    induction e using Expr.ungrouped.induct with
    | case1 e ih =>
      rw [Expr.replace] at h
      have h := hf.isPlaceholder_getD h
      exact ih h
    | case2 e hne =>
      have he := e.isPlaceholder_replace hf h
      cases e with
      | «variable» t =>
        obtain ⟨v, hv⟩ := Option.isSome_iff_exists.mp (hx t he)
        rw [Expr.replace, hv, Option.getD_some, (hf _ v hv).1] at h
        cases h
      | grouping e => exact hne e rfl
      | _ => cases he
  have hzero : LeavesTimes x f 0 := fun e => by rw [hnone]; exact Nat.zero_le _
  simpa using tallyAll_replace_le_mul hf hzero ss

end

end Lss
