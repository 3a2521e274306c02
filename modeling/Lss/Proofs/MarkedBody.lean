import Lss.Proofs.Twinned

/-!
# Two runs of lowering

The option to mark lines reaches code through the marks alone. So two runs of lowering from one
pool, with the option and without it, end in one pool, with the same scopes, and with code that is
beside each other.
-/
namespace Lss

open Lower

/-! Expressions have no marks, and are lowered alike. -/

section

variable {env : Env} {scopes : Scopes}

mutual

theorem Expr.Emits.plain {frame : Option Nat} {e : Expr} {code : Code} :
    Expr.Emits env scopes frame e code → code.Plain
  | .literal h => by simp [Instruction.isPlain_of_isConstant h]
  | .this _ _ | .slot _ _ | .global _ _ _ | .thisMember _ _ _ _ | .gameVariable _ | .create _ => by
    simp [Instruction.isPlain]
  | .element _ _ _ h | .unary _ h | .property _ _ h | .member _ _ _ h
  | .dynamicGameVariable _ h => by simp [h.plain, Instruction.isPlain]
  | .grouping h => h.plain
  | .dynamicMember _ ha hb | .binary _ ha hb | .index ha hb => by
    simp [ha.plain, hb.plain, Instruction.isPlain]
  | .array _ h | .call _ _ h | .callThisMethod _ _ _ _ h | .callGame _ _ h
  | .construct _ h => by simp [h.plain, Instruction.isPlain]
  | .callArray _ _ _ _ ha hb | .callMethod _ _ _ _ ha hb | .callDynamicGame _ _ ha hb => by
    simp [ha.plain, hb.plain, Instruction.isPlain]
  | .callDynamicMethod _ _ ha hb hc => by simp [ha.plain, hb.plain, hc.plain, Instruction.isPlain]

theorem Expr.EmitsAll.plain {frame : Option Nat} {es : List Expr} {code : Code} :
    Expr.EmitsAll env scopes frame es code → code.Plain
  | .nil => Code.plain_nil
  | .cons ha hb => by simp [ha.plain, hb.plain]

end

theorem lower_plain (e : Expr) : Gives (lower env scopes e) Code.Plain :=
  (lower_emits scopes e).imp fun _ h => h.plain

end

def Env.unmarked (env : Env) : Env := { env with lineNumbers := false }

section

variable {env : Env} {read : Token → Lower Code}

mutual

theorem lowerExpr_unmarked : (e : Expr) → lowerExpr env.unmarked read e = lowerExpr env read e
  | .literal t | .pending t => by simp only [lowerExpr]
  | .variable t => by
    simp only [lowerExpr]
    rfl
  | .grouping e => by simp only [lowerExpr, lowerExpr_unmarked e]
  | .unary op e leads => by simp only [lowerExpr, lowerExpr_unmarked e]
  | .binary left op right => by
    simp only [lowerExpr, lowerExpr_unmarked left, lowerExpr_unmarked right]
    rfl
  | .index array at_ span => by
    simp only [lowerExpr, lowerExpr_unmarked array, lowerExpr_unmarked at_]
  | .array elements span => by simp only [lowerExpr, lowerAll_unmarked elements]
  | .call target arguments span => by
    cases target with
    | binary left op right =>
      simp only [lowerExpr, lowerAll_unmarked arguments, lowerExpr_unmarked left,
        lowerExpr_unmarked right]
      rfl
    | _ => simp only [lowerExpr, lowerAll_unmarked arguments] <;> rfl
  | .construct type none span => by
    simp only [lowerExpr]
    rfl
  | .construct type (some arguments) span => by
    simp only [lowerExpr, lowerAll_unmarked arguments]
    rfl
termination_by e => sizeOf e
decreasing_by all_goals (subst_vars; simp +arith)

theorem lowerAll_unmarked : (es : List Expr) → (acc : Code) →
    lowerAll env.unmarked read acc es = lowerAll env read acc es
  | [], acc => by simp only [lowerAll]
  | e :: es, acc => by simp only [lowerAll, lowerExpr_unmarked e, lowerAll_unmarked es]
termination_by es => sizeOf es
decreasing_by all_goals simp +arith

end

theorem readFrom_unmarked (scopes : Scopes) (frame : Nat) (t : Token) :
    readFrom env.unmarked scopes frame t = readFrom env scopes frame t := by
  induction frame using Nat.strongRecOn generalizing t with
  | ind frame ih =>
    unfold readFrom
    split
    · rfl
    · rfl
    · next outer _ =>
      split
      · next hlt =>
        have hread : (fun t => readFrom env.unmarked scopes outer t) =
            fun t => readFrom env scopes outer t := funext (ih outer hlt)
        rw [hread, lowerExpr_unmarked]
      · rfl

theorem lower_unmarked (scopes : Scopes) (e : Expr) :
    lower env.unmarked scopes e = lower env scopes e := by
  have hread : readName env.unmarked scopes = readName env scopes := by
    funext t
    unfold readName
    split
    · exact readFrom_unmarked scopes _ t
    · rfl
  unfold lower
  rw [hread, lowerExpr_unmarked]

end

namespace Lower

variable {α β γ δ : Type} {f : Lower α} {g : Lower β} {R : α → β → Prop}

/-- Where both succeed from one pool, both end in one pool, with results that are in `R`. -/
def Twins (f : Lower α) (g : Lower β) (R : α → β → Prop) : Prop :=
  ∀ p a b q r, f.run.run p = (.ok a, q) → g.run.run p = (.ok b, r) → q = r ∧ R a b

theorem Twins.pure {a : α} {b : β} (h : R a b) : Twins (pure a) (pure b) R := by
  intro p a' b' q r ha hb
  cases ha
  cases hb
  exact ⟨rfl, h⟩

theorem Twins.throw (e : CompileError) : Twins (throw e) g R := by
  intro p a b q r ha
  cases ha

theorem Twins.bind {h : α → Lower γ} {k : β → Lower δ} {S : γ → δ → Prop} (hfg : Twins f g R)
    (hhk : ∀ a b, R a b → Twins (h a) (k b) S) : Twins (f >>= h) (g >>= k) S := by
  intro p c d q r hc hd
  obtain ⟨a, q', ha, hc⟩ := run_bind_eq_ok.mp hc
  obtain ⟨b, r', hb, hd⟩ := run_bind_eq_ok.mp hd
  obtain ⟨rfl, hab⟩ := hfg p a b q' r' ha hb
  exact hhk a b hab q' c d q r hc hd

theorem Twins.map {h : α → γ} {k : β → δ} {S : γ → δ → Prop}
    (hfg : Twins f g fun a b => S (h a) (k b)) : Twins (h <$> f) (k <$> g) S := by
  rw [map_eq_pure_bind, map_eq_pure_bind]
  exact hfg.bind fun a b hab => .pure hab

theorem Twins.imp {S : α → β → Prop} (h : Twins f g R) (hRS : ∀ a b, R a b → S a b) :
    Twins f g S := by
  intro p a b q r ha hb
  obtain ⟨heq, hab⟩ := h p a b q r ha hb
  exact ⟨heq, hRS a b hab⟩

/-- A run beside itself. -/
theorem Twins.same {Q : α → Prop} (hf : Gives f Q) : Twins f f fun a b => a = b ∧ Q a := by
  intro p a b q r ha hb
  rw [ha] at hb
  cases hb
  exact ⟨rfl, rfl, hf p a q ha⟩

theorem Twins.ofExcept (a : Except CompileError α) (b : Except CompileError β) :
    Twins (ofExcept a) (ofExcept b) fun x y => a = .ok x ∧ b = .ok y := by
  cases a with
  | error e => exact .throw e
  | ok x =>
    cases b with
    | error e =>
      intro p a b q r _ hb
      cases hb
    | ok y => exact .pure ⟨rfl, rfl⟩

end Lower

/-! Statements. -/

structure Lowered.Beside (r s : Lowered) : Prop where
  code : Code.Twinned r.1 s.1
  scopes : r.2 = s.2

section

variable {env : Env}

theorem lower_twins (scopes : Scopes) (e : Expr) :
    Twins (lower env.unmarked scopes e) (lower env scopes e) fun a b => a = b ∧ a.Plain := by
  rw [lower_unmarked]
  exact .same (lower_plain e)

theorem lineMark_twinned (s : Stmt) :
    Code.Twinned (lineMark env.unmarked s) (lineMark env s) := by
  unfold lineMark
  rw [if_neg (by simp [Env.unmarked])]
  split
  · exact .mark _
  · exact .plain Code.plain_nil

theorem Lowered.Beside.marked {r r' : Lowered} (h : r.Beside r') (s : Stmt) :
    (marked env.unmarked s r).Beside (marked env s r') :=
  ⟨(lineMark_twinned s).append h.code, h.scopes⟩

theorem Stmt.Emits.plain_assign {scopes u : Scopes} {target value : Expr} {code : Code}
    (h : Stmt.Emits env scopes (.assign target value) code u) : code.Plain := by
  cases h with
  | assignLocal _ _ h | assignGlobal _ _ _ h | assignThisMember _ _ _ h | assignGame _ h =>
    simp [h.plain, Instruction.isPlain]
  | assignMember _ _ ha hb => simp [ha.plain, hb.plain, Instruction.isPlain]
  | assignDynamicMember _ ha hb hc | assignElement ha hb hc =>
    simp [ha.plain, hb.plain, hc.plain, Instruction.isPlain]

theorem lowerAssign_unmarked (scopes : Scopes) (target value : Expr) :
    lowerAssign env.unmarked scopes target value = lowerAssign env scopes target value := by
  unfold lowerAssign
  simp only [lower_unmarked]
  rfl

theorem lowerVar_twins (scopes : Scopes) (name : Token) (init : Option Expr) :
    Twins (lowerVar env.unmarked scopes name init) (lowerVar env scopes name init)
      Lowered.Beside := by
  have heq : lowerVar env.unmarked scopes name init = lowerVar env scopes name init := by
    unfold lowerVar
    simp only [lower_unmarked]
  rw [heq]
  refine (Twins.same (lowerVar_emits scopes name init)).imp ?_
  rintro r _ ⟨rfl, h⟩
  have hplain : Code.Plain r.1 := by
    generalize r.1 = code, r.2 = u at h
    cases h with
    | varNothing => simp [Instruction.isPlain]
    | var h => simp [h.plain, Instruction.isPlain]
  exact ⟨.plain hplain, rfl⟩

/-- Wherever it is lowered, a statement gives code without marks beside the code with them. -/
def Stmt.Twins (env : Env) (s : Stmt) : Prop :=
  ∀ scopes, Lower.Twins (lowerStmt env.unmarked scopes s) (lowerStmt env scopes s) Lowered.Beside

theorem Stmt.Twins.marked {s : Stmt} (h : s.Twins env) (scopes : Scopes) :
    Lower.Twins (marked env.unmarked s <$> lowerStmt env.unmarked scopes s)
      (marked env s <$> lowerStmt env scopes s) Lowered.Beside :=
  .map ((h scopes).imp fun _ _ hr => hr.marked s)

section

variable {body : Stmt} (hbody : body.Twins env)
include hbody

theorem ifElse_twins {arm : Stmt} (harm : arm.Twins env) (c : Expr) (span : Span) :
    (Stmt.if_ (some c) body (some arm) span).Twins env := by
  intro scopes
  simp only [lowerStmt]
  refine .bind (lower_twins scopes c) ?_
  rintro test _ ⟨rfl, htest⟩
  refine .bind (hbody.marked scopes) ?_
  rintro ⟨a, u⟩ ⟨b, _⟩ ⟨hab, rfl⟩
  refine .bind (.ofExcept _ _) ?_
  rintro e e' ⟨he, he'⟩
  refine .bind (harm.marked u) ?_
  rintro ⟨c, v⟩ ⟨d, _⟩ ⟨hcd, rfl⟩
  refine .bind (.ofExcept _ _) ?_
  rintro f f' ⟨hf, hf'⟩
  exact .pure ⟨.ifElse htest hab hcd he he' hf hf', rfl⟩

theorem foreach_twins (element : Token) (collection : Expr) :
    (Stmt.foreach element collection body).Twins env := by
  intro scopes
  simp only [lowerStmt]
  refine .bind (lower_twins _ collection) ?_
  rintro items _ ⟨rfl, hitems⟩
  split
  · exact .throw _
  split
  · exact .throw _
  next inner _ =>
  refine .bind (hbody.marked inner) ?_
  rintro ⟨a, u⟩ ⟨b, _⟩ ⟨hab, rfl⟩
  refine .bind (.ofExcept _ _) ?_
  rintro loop loop' ⟨h, h'⟩
  have htest (i m : Slot) :
      Code.Plain [.getVariable m, .getVariable i, .binary .greaterEqual] := by
    simp [Instruction.isPlain]
  have hadvance (i : Slot) :
      Code.Plain [.getVariable i, .pushInt8 1, .binary .add, .setVariable i] := by
    simp [Instruction.isPlain]
  have hloop := Code.Twinned.loop (htest _ _) (hab.append (.plain (hadvance _))) h h'
  refine .pure ⟨.append (.plain ?_) hloop, rfl⟩
  simp [hitems, Instruction.isPlain]

end

mutual

theorem lowerStmt_twins (env : Env) : (s : Stmt) → s.Twins env
  | .block ⟨body, _⟩, scopes => by
    simp only [lowerStmt]
    refine .bind (lowerStmts_twins env body [] [] scopes.enter (.plain Code.plain_nil)) ?_
    rintro ⟨a, u⟩ ⟨b, v⟩ ⟨hab, rfl⟩
    exact .pure ⟨hab, rfl⟩
  | .expr e, scopes => by
    simp only [lowerStmt]
    refine .bind (lower_twins scopes e) ?_
    rintro code _ ⟨rfl, hcode⟩
    exact .pure ⟨.plain (by simp [hcode, Instruction.isPlain]), rfl⟩
  | .var name init, scopes => by
    simp only [lowerStmt]
    exact lowerVar_twins scopes name init
  | .assign target value, scopes => by
    simp only [lowerStmt, lowerAssign_unmarked]
    refine .bind (.same (lowerAssign_emits scopes target value)) ?_
    rintro code _ ⟨rfl, hcode⟩
    exact .pure ⟨.plain hcode.plain_assign, rfl⟩
  | .return_ none _, scopes => by
    simp only [lowerStmt]
    exact .pure ⟨.plain (by simp [Instruction.isPlain]), rfl⟩
  | .return_ (some e) _, scopes => by
    simp only [lowerStmt]
    refine .bind (lower_twins scopes e) ?_
    rintro code _ ⟨rfl, hcode⟩
    exact .pure ⟨.plain (by simp [hcode, Instruction.isPlain]), rfl⟩
  | .if_ none body _ _, scopes => by
    simp only [lowerStmt]
    exact (lowerStmt_twins env body).marked scopes
  | .if_ (some c) body none span, scopes => by
    simp only [lowerStmt]
    refine .bind (lower_twins scopes c) ?_
    rintro test _ ⟨rfl, htest⟩
    refine .bind ((lowerStmt_twins env body).marked scopes) ?_
    rintro ⟨a, u⟩ ⟨b, v⟩ ⟨hab, rfl⟩
    refine .bind (.ofExcept _ _) ?_
    rintro e e' ⟨he, he'⟩
    exact .pure ⟨.if_ htest hab he he', rfl⟩
  | .if_ (some c) body (some arm) span, scopes =>
    ifElse_twins (lowerStmt_twins env body) (lowerStmt_twins env arm) c span scopes
  | .while_ c body, scopes => by
    simp only [lowerStmt]
    refine .bind (lower_twins scopes c) ?_
    rintro test _ ⟨rfl, htest⟩
    refine .bind ((lowerStmt_twins env body).marked scopes) ?_
    rintro ⟨a, u⟩ ⟨b, _⟩ ⟨hab, rfl⟩
    refine .bind (.ofExcept _ _) ?_
    rintro loop loop' ⟨h, h'⟩
    exact .pure ⟨.loop htest hab h h', rfl⟩
  | .doWhile body c, scopes => by
    simp only [lowerStmt]
    refine .bind ((lowerStmt_twins env body).marked scopes) ?_
    rintro ⟨a, u⟩ ⟨b, _⟩ ⟨hab, rfl⟩
    refine .bind (lower_twins u c) ?_
    rintro test _ ⟨rfl, htest⟩
    refine .bind (.ofExcept _ _) ?_
    rintro e e' ⟨he, he'⟩
    exact .pure ⟨.doWhile htest hab he he', rfl⟩
  | .foreach element collection body, scopes =>
    foreach_twins (lowerStmt_twins env body) element collection scopes
  | .classDecl _, _ | .property _, _ | .subroutine _, _ | .global _, _ => by
    simp only [lowerStmt]
    exact .throw _

theorem lowerStmts_twins (env : Env) : (ss : List Stmt) → (acc acc' : Code) → (scopes : Scopes) →
    Code.Twinned acc.reverse acc'.reverse →
    Twins (lowerStmts env.unmarked acc scopes ss) (lowerStmts env acc' scopes ss) Lowered.Beside
  | [], acc, acc', scopes, hacc => by
    simp only [lowerStmts]
    exact .pure ⟨hacc, rfl⟩
  | s :: ss, acc, acc', scopes, hacc => by
    simp only [lowerStmts]
    refine .bind ((lowerStmt_twins env s).marked scopes) ?_
    rintro ⟨a, u⟩ ⟨b, _⟩ ⟨hab, rfl⟩
    refine lowerStmts_twins env ss _ _ u ?_
    rw [List.reverse_append, List.reverse_append, List.reverse_reverse, List.reverse_reverse]
    exact hacc.append hab

end

/-- A body beside itself with line numbers. -/
theorem lowerSubroutine_twins (env : Env) (s : Subroutine) :
    Twins (lowerSubroutine env.unmarked s) (lowerSubroutine env s) Code.Twinned := by
  unfold lowerSubroutine
  refine .bind (.ofExcept _ _) ?_
  rintro draft _ ⟨hdraft, hdraft'⟩
  obtain rfl := Except.ok.inj (hdraft.symm.trans hdraft')
  refine .bind (lowerStmts_twins env s.body.statements [] [] draft.scopes
    (.plain Code.plain_nil)) ?_
  rintro ⟨a, u⟩ ⟨b, _⟩ ⟨hab, rfl⟩
  refine (Twins.ofExcept _ _).imp ?_
  rintro code code' ⟨h, h'⟩
  unfold Draft.finish at h h'
  split at h
  · cases h
  · next hmax =>
    rw [if_neg hmax] at h'
    cases h
    cases h'
    refine .append (.append (.plain fun i hi => ?_) hab) (.plain ?_)
    · exact Instruction.isPlain_of_isPrologue (Draft.isPrologue_of_mem_prologue hi)
    · split <;> simp [Draft.implicitReturn, Instruction.isPlain]

end

end Lss
