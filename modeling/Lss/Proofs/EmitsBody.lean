import Lss.Proofs.Basic
import Lss.Proofs.Emits

/-!
# What statements and bodies emit

The code of a statement as a relation that follows the statement, with the scopes before and after
it. Distances of branches are left open.
-/
namespace Lss

open Lower

/-- The code of a loop over a collection, with the counter `i` and its last value in `m`. -/
def foreachCode (i m : Slot) (items body : Code) (out back : Int16) : Code :=
  ([.pushZero, .setVariable i] : Code) ++ items ++
    ([.property .length, .pushInt8 1, .binary .sub, .setVariable m] : Code) ++
    (([.getVariable m, .getVariable i, .binary .greaterEqual] : Code) ++ .branch .ifFalse out ::
      (body ++ ([Instruction.getVariable i, .pushInt8 1, .binary .add, .setVariable i] : Code)) ++
      ([.branch .always back] : Code))

/-- What the head of a loop over a collection does to scopes. In `inside` the collection is
evaluated, and `inner` is where the body starts. -/
structure Scopes.Heads (scopes : Scopes) (element : Token) (collection : Expr)
    (index last : UInt16) (frame : Nat) (inside inner : Scopes) : Prop where
  index_eq : index = (scopes.enter.declareHidden "index").1
  last_eq : last = ((scopes.enter.declareHidden "index").2.declareHidden "max").1
  inside_eq : inside = ((scopes.enter.declareHidden "index").2.declareHidden "max").2
  enclosing_eq : inside.enclosing = some frame
  bind_eq : inside.bind element.text (.element collection (Slot.ofLocal index).index frame) =
    some inner

mutual

inductive Stmt.Emits (env : Env) : Scopes → Stmt → Code → Scopes → Prop
  | block {scopes body span code u} : EmitsAll env scopes.enter body code u →
      Emits env scopes (.block ⟨body, span⟩) code u.exit
  | expr {scopes e code} : Expr.Emits env scopes scopes.current e code →
      Emits env scopes (.expr e) (code ++ [Instruction.pop]) scopes
  | varNothing {scopes u : Scopes} {name : Token} {i} : scopes.declare name.text = some (i, u) →
      Emits env scopes (.var name none) [.pushNothing, .setVariable (.ofLocal i)] u
  | var {scopes u : Scopes} {name : Token} {e code i} :
      Expr.Emits env scopes scopes.current e code → scopes.declare name.text = some (i, u) →
      Emits env scopes (.var name (some e)) (code ++ [Instruction.setVariable (.ofLocal i)]) u
  | assignLocal {scopes : Scopes} {t value code i} : t.kind = .identifier →
      scopes.resolve t.text = some (.slot i) → Expr.Emits env scopes scopes.current value code →
      Emits env scopes (.assign (.variable t) value)
        (code ++ [Instruction.setVariable (.ofLocal i)]) scopes
  | assignGlobal {scopes : Scopes} {t value code k} : t.kind = .identifier →
      scopes.resolve t.text = none → env.globals.find? t.text = some k →
      Expr.Emits env scopes scopes.current value code →
      Emits env scopes (.assign (.variable t) value)
        (code ++ [Instruction.setVariable (.ofGlobal k)]) scopes
  | assignThisMember {scopes left op right value s code} : op.kind = .access .member →
      left.isThis → env.owner.isSome → Expr.Emits env scopes scopes.current value code →
      Emits env scopes (.assign (.binary left op right) value)
        (code ++ [Instruction.setThisMember s]) scopes
  | assignMember {scopes left op right value s a b} : op.kind = .access .member →
      left.isThis = false → Expr.Emits env scopes scopes.current left a →
      Expr.Emits env scopes scopes.current value b →
      Emits env scopes (.assign (.binary left op right) value)
        (a ++ b ++ [Instruction.setMember s]) scopes
  | assignDynamicMember {scopes left op right value a b c} : op.kind = .access .dynamicMember →
      Expr.Emits env scopes scopes.current left a → Expr.Emits env scopes scopes.current right b →
      Expr.Emits env scopes scopes.current value c →
      Emits env scopes (.assign (.binary left op right) value)
        (a ++ b ++ c ++ [Instruction.setDynamicMember]) scopes
  | assignGame {scopes left op right value s n code} : op.kind = .access .scope →
      Expr.Emits env scopes scopes.current value code →
      Emits env scopes (.assign (.binary left op right) value)
        (code ++ [Instruction.setGameVariable s n]) scopes
  | assignElement {scopes array at_ span value a b c} :
      Expr.Emits env scopes scopes.current array a → Expr.Emits env scopes scopes.current at_ b →
      Expr.Emits env scopes scopes.current value c →
      Emits env scopes (.assign (.index array at_ span) value)
        (a ++ b ++ c ++ [Instruction.setElement]) scopes
  | returnNothing {scopes span} :
      Emits env scopes (.return_ none span) [.pushNothing, .return_] scopes
  | return_ {scopes e span code} : Expr.Emits env scopes scopes.current e code →
      Emits env scopes (.return_ (some e) span) (code ++ [Instruction.return_]) scopes
  | always {scopes body arm span code u} : Emits env scopes body code u →
      Emits env scopes (.if_ none body arm span) (lineMark env body ++ code) u
  | if_ {scopes c body span test code u skip} : Expr.Emits env scopes scopes.current c test →
      Emits env scopes body code u →
      Emits env scopes (.if_ (some c) body none span)
        (test ++ .branch .ifFalse skip :: (lineMark env body ++ code)) u
  | ifElse {scopes c body arm span test code armCode u v skip past} :
      Expr.Emits env scopes scopes.current c test → Emits env scopes body code u →
      Emits env u arm armCode v →
      Emits env scopes (.if_ (some c) body (some arm) span)
        (test ++ .branch .ifFalse skip :: (lineMark env body ++ code) ++
          .branch .always past :: (lineMark env arm ++ armCode)) v
  | while_ {scopes c body test code u out back} : Expr.Emits env scopes scopes.current c test →
      Emits env scopes body code u →
      Emits env scopes (.while_ c body)
        (test ++ .branch .ifFalse out :: (lineMark env body ++ code)
          ++ [Instruction.branch .always back]) u
  | doWhile {scopes body c code test u back} : Emits env scopes body code u →
      Expr.Emits env u u.current c test →
      Emits env scopes (.doWhile body c)
        (lineMark env body ++ code ++ test ++ [Instruction.branch .ifTrue back]) u
  | foreach {scopes element collection body index last frame inside inner items code u out back} :
      scopes.Heads element collection index last frame inside inner →
      Expr.Emits env inside inside.current collection items → Emits env inner body code u →
      Emits env scopes (.foreach element collection body)
        (foreachCode (.ofLocal index) (.ofLocal last) items (lineMark env body ++ code) out back)
        u.exit

inductive Stmt.EmitsAll (env : Env) : Scopes → List Stmt → Code → Scopes → Prop
  | nil {scopes} : EmitsAll env scopes [] [] scopes
  | cons {scopes s ss a b u v} : Emits env scopes s a u → EmitsAll env u ss b v →
      EmitsAll env scopes (s :: ss) (lineMark env s ++ a ++ b) v

end

section

variable {env : Env}

theorem loopCode_eq_ok {test body code : Code} {span : Span} :
    loopCode test body span = .ok code ↔ ∃ out back,
      Branch.forward (body ++ [Instruction.branch .always back]) span = .ok out ∧
        Branch.backward (test ++ .branch .ifFalse 0 :: body) span = .ok back ∧
        code = test ++ .branch .ifFalse out :: body ++ [Instruction.branch .always back] := by
  unfold loopCode
  constructor
  · intro h
    obtain ⟨back, hback, h⟩ := bind_ok h
    obtain ⟨out, hout, h⟩ := bind_ok h
    cases h
    exact ⟨out, back, hout, hback, rfl⟩
  · rintro ⟨out, back, hout, hback, rfl⟩
    rw [hback]
    show Except.bind (Branch.forward (body ++ [Instruction.branch .always back]) span) _ = _
    rw [hout]
    rfl

theorem loopCode_gives {test body : Code} {span : Span} :
    Gives (Lower.ofExcept (loopCode test body span)) fun code =>
      ∃ out back,
        code = test ++ .branch .ifFalse out :: body ++ [Instruction.branch .always back] := by
  refine (Gives.ofExcept _).imp fun code h => ?_
  obtain ⟨out, back, -, -, hcode⟩ := loopCode_eq_ok.mp h
  exact ⟨out, back, hcode⟩

theorem assignedSlot_gives (scopes : Scopes) (t : Token) :
    Gives (assignedSlot env scopes t) fun s =>
      (∃ i, scopes.resolve t.text = some (.slot i) ∧ s = .ofLocal i) ∨
        ∃ k, scopes.resolve t.text = none ∧ env.globals.find? t.text = some k ∧
          s = .ofGlobal k := by
  unfold assignedSlot
  split
  · next i hi => exact .pure (.inl ⟨i, hi, rfl⟩)
  · exact .throw _
  · next hnone => exact (readGlobal_gives t).imp fun _ ⟨k, hk, hs⟩ => .inr ⟨k, hnone, hk, hs⟩

theorem lowerAssign_emits (scopes : Scopes) (target value : Expr) :
    Gives (lowerAssign env scopes target value) fun code =>
      Stmt.Emits env scopes (.assign target value) code scopes := by
  have hlower (e : Expr) : Gives (lower env scopes e) (Expr.Emits env scopes scopes.current e) :=
    lower_emits scopes e
  unfold lowerAssign
  split
  · next t =>
    split
    · exact .throw_bind _
    · next hk =>
      have hk : t.kind = .identifier := Decidable.not_not.mp hk
      refine .bind (assignedSlot_gives scopes t) fun s hs => .bind (hlower _) fun code hcode =>
        .pure ?_
      rcases hs with ⟨i, hi, rfl⟩ | ⟨k, hnone, hfind, rfl⟩
      · exact .assignLocal hk hi hcode
      · exact .assignGlobal hk hnone hfind hcode
  · split
    · next hop =>
      split
      · exact .throw _
      · refine .bind (.any _) fun _ _ => ?_
        split
        · next hthis =>
          exact .bind (ownerOf_gives _) fun _ howner => .bind (hlower _) fun _ h =>
            .pure (.assignThisMember hop hthis howner h)
        · next hthis =>
          exact .bind (hlower _) fun _ ha => .bind (hlower _) fun _ hb =>
            .pure (.assignMember hop (Bool.eq_false_iff.mpr hthis) ha hb)
    · next hop =>
      exact .bind (hlower _) fun _ ha => .bind (hlower _) fun _ hb => .bind (hlower _) fun _ hc =>
        .pure (.assignDynamicMember hop ha hb hc)
    · next hop =>
      exact .bind (.any _) fun _ _ => .bind (.any _) fun _ _ => .bind (hlower _) fun _ h =>
        .pure (.assignGame hop h)
    · exact .throw _
  · exact .bind (hlower _) fun _ ha => .bind (hlower _) fun _ hb => .bind (hlower _) fun _ hc =>
      .pure (.assignElement ha hb hc)
  · exact .throw _

theorem lowerVar_emits (scopes : Scopes) (name : Token) (init : Option Expr) :
    Gives (lowerVar env scopes name init) fun r =>
      Stmt.Emits env scopes (.var name init) r.1 r.2 := by
  unfold lowerVar
  cases init with
  | none =>
    dsimp only
    rw [pure_bind]
    split
    · next hdeclare => exact .pure (.varNothing hdeclare)
    · exact .throw _
  | some e =>
    refine .bind (lower_emits scopes e) fun code hcode => ?_
    split
    · next hdeclare => exact .pure (.var hcode hdeclare)
    · exact .throw _

mutual

theorem lowerStmt_emits (env : Env) : (s : Stmt) → (scopes : Scopes) →
    Gives (lowerStmt env scopes s) fun r => Stmt.Emits env scopes s r.1 r.2
  | .block ⟨body, _⟩, scopes => by
    simp only [lowerStmt]
    refine .bind (lowerStmts_emits env body [] scopes.enter) ?_
    rintro _ ⟨code, h, heq⟩
    rw [heq]
    exact .pure (.block h)
  | .expr e, scopes => by
    simp only [lowerStmt]
    exact .bind (lower_emits scopes e) fun _ h => .pure (.expr h)
  | .var name init, scopes => by
    simp only [lowerStmt]
    exact lowerVar_emits scopes name init
  | .assign target value, scopes => by
    simp only [lowerStmt]
    exact .bind (lowerAssign_emits scopes target value) fun _ h => .pure h
  | .return_ none _, scopes => by
    simp only [lowerStmt]
    exact .pure .returnNothing
  | .return_ (some e) _, scopes => by
    simp only [lowerStmt]
    exact .bind (lower_emits scopes e) fun _ h => .pure (.return_ h)
  | .if_ none body _ _, scopes => by
    simp only [lowerStmt]
    exact .map ((lowerStmt_emits env body scopes).imp fun _ h => .always h)
  | .if_ (some c) body none span, scopes => by
    simp only [lowerStmt]
    refine .bind (lower_emits scopes c) fun test htest => ?_
    refine .bind (marked_emits env body scopes (lowerStmt_emits env body scopes)) ?_
    rintro ⟨_, u⟩ ⟨code, hbody, rfl⟩
    exact .bind (.any _) fun skip _ => .pure (.if_ htest hbody)
  | .if_ (some c) body (some arm) span, scopes => by
    simp only [lowerStmt]
    refine .bind (lower_emits scopes c) fun test htest => ?_
    refine .bind (marked_emits env body scopes (lowerStmt_emits env body scopes)) ?_
    rintro ⟨_, u⟩ ⟨code, hbody, rfl⟩
    refine .bind (.any _) fun skip _ => ?_
    refine .bind (marked_emits env arm u (lowerStmt_emits env arm u)) ?_
    rintro ⟨_, v⟩ ⟨armCode, harm, rfl⟩
    exact .bind (.any _) fun past _ => .pure (.ifElse htest hbody harm)
  | .while_ c body, scopes => by
    simp only [lowerStmt]
    refine .bind (lower_emits scopes c) fun test htest => ?_
    refine .bind (marked_emits env body scopes (lowerStmt_emits env body scopes)) ?_
    rintro ⟨_, u⟩ ⟨code, hbody, rfl⟩
    refine .bind loopCode_gives ?_
    rintro _ ⟨out, back, rfl⟩
    exact .pure (.while_ htest hbody)
  | .doWhile body c, scopes => by
    simp only [lowerStmt]
    refine .bind (marked_emits env body scopes (lowerStmt_emits env body scopes)) ?_
    rintro ⟨_, u⟩ ⟨code, hbody, rfl⟩
    refine .bind (lower_emits u c) fun test htest => .bind (.any _) fun back _ => .pure ?_
    exact .doWhile hbody htest
  | .foreach element collection body, scopes => by
    simp only [lowerStmt]
    refine .bind (lower_emits _ collection) fun items hitems => ?_
    split
    · exact .throw _
    · next frame henclosing =>
      split
      · exact .throw _
      · next inner hbind =>
        refine .bind (marked_emits env body inner (lowerStmt_emits env body inner)) ?_
        rintro ⟨_, u⟩ ⟨code, hbody, rfl⟩
        refine .bind loopCode_gives ?_
        rintro _ ⟨out, back, rfl⟩
        exact .pure (.foreach ⟨rfl, rfl, rfl, henclosing, hbind⟩ hitems hbody)
  | .classDecl _, _ | .property _, _ | .subroutine _, _ | .global _, _ => by
    simp only [lowerStmt]
    exact .throw _

/-- The line of a statement in front of its code. -/
theorem marked_emits (env : Env) (s : Stmt) (scopes : Scopes)
    (h : Gives (lowerStmt env scopes s) fun r => Stmt.Emits env scopes s r.1 r.2) :
    Gives (marked env s <$> lowerStmt env scopes s) fun r =>
      ∃ code, Stmt.Emits env scopes s code r.2 ∧ r.1 = lineMark env s ++ code :=
  .map (h.imp fun r h => ⟨r.1, h, rfl⟩)

theorem lowerStmts_emits (env : Env) : (ss : List Stmt) → (acc : Code) → (scopes : Scopes) →
    Gives (lowerStmts env acc scopes ss) fun r =>
      ∃ code, Stmt.EmitsAll env scopes ss code r.2 ∧ r.1 = acc.reverse ++ code
  | [], acc, scopes => by
    simp only [lowerStmts]
    exact .pure ⟨[], .nil, (List.append_nil _).symm⟩
  | s :: ss, acc, scopes => by
    simp only [lowerStmts]
    refine .bind (marked_emits env s scopes (lowerStmt_emits env s scopes)) ?_
    rintro ⟨_, u⟩ ⟨a, hs, rfl⟩
    refine (lowerStmts_emits env ss _ u).imp ?_
    rintro ⟨_, v⟩ ⟨b, hss, rfl⟩
    exact ⟨lineMark env s ++ a ++ b, .cons hs hss, by simp⟩

end

end

/-- The code of a body, with the scopes after its statements: a prologue, the statements and, unless
they end in one, a return. -/
inductive Subroutine.Emits (env : Env) (s : Subroutine) : Code → Scopes → Prop
  | intro {draft prologue body u} :
      Draft.start s.name.text s.parameters env.owner.isSome = .ok draft →
      Stmt.EmitsAll env draft.scopes s.body.statements body u → u.slotCount ≤ Draft.maxLocals →
      (∀ i ∈ prologue, i.isPrologue) →
      Emits env s (prologue ++ body ++
        if s.body.statements.getLast?.any Stmt.isReturn then [] else Draft.implicitReturn) u

theorem Draft.isPrologue_of_mem_prologue {d : Draft} {i : Instruction} (h : i ∈ d.prologue) :
    i.isPrologue := by
  unfold prologue at h
  rcases List.mem_append.mp h with h | h <;> split at h
  · rw [List.mem_singleton.mp h]
    rfl
  · cases h
  · rw [List.mem_singleton.mp h]
    rfl
  · cases h

theorem lowerSubroutine_emits (env : Env) (s : Subroutine) :
    Gives (lowerSubroutine env s) fun code => ∃ u, s.Emits env code u := by
  unfold lowerSubroutine
  refine .bind (.ofExcept _) fun draft hstart => ?_
  refine .bind (lowerStmts_emits env s.body.statements [] draft.scopes) ?_
  rintro ⟨_, u⟩ ⟨body, hbody, rfl⟩
  refine (Gives.ofExcept _).imp fun code hfinish => ?_
  unfold Draft.finish at hfinish
  split at hfinish
  · cases hfinish
  · next hmax =>
    cases hfinish
    exact ⟨u, .intro hstart hbody (Nat.le_of_not_lt hmax) fun i => Draft.isPrologue_of_mem_prologue⟩

end Lss
