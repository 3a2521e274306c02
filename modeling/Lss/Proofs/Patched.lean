import Lss.Lowering.Stmt

/-!
# Code written in one pass

A body can be written into one draft from front to back: a branch over what comes next is left open
and set when its end is reached, and a branch back is counted from the place that it leads to. What
is written so is what the pieces are composed to, with the same errors at the same points.
-/
namespace Lss

namespace Draft

variable (d : Draft)

def append (code : Code) : Draft := { d with code := d.code ++ code.toArray }

def within (scopes : Scopes) : Draft := { d with scopes }

/-- Behind code that has been lowered. -/
def behind (r : Lowered) : Draft := (d.append r.1).within r.2

theorem emit_eq (i : Instruction) : d.emit i = d.append [i] := by
  simp [emit, append]

theorem append_eq (code : Code) : d.append code = d.behind (code, d.scopes) := rfl

@[simp] theorem append_within (code : Code) (scopes : Scopes) :
    (d.append code).within scopes = d.behind (code, scopes) := rfl

@[simp] theorem behind_within (r : Lowered) (scopes : Scopes) :
    (d.behind r).within scopes = d.behind (r.1, scopes) := rfl

theorem within_eq (scopes : Scopes) : d.within scopes = d.behind ([], scopes) := by
  simp [behind, within, append]

@[simp] theorem behind_scopes (r : Lowered) : (d.behind r).scopes = r.2 := rfl

@[simp] theorem behind_size (r : Lowered) :
    (d.behind r).code.size = d.code.size + r.1.length := by
  simp [behind, within, append]

@[simp] theorem behind_behind (r r' : Lowered) :
    (d.behind r).behind r' = d.behind (r.1 ++ r'.1, r'.2) := by
  simp [behind, within, append, Array.append_assoc]

@[simp] theorem behind_append (r : Lowered) (code : Code) :
    (d.behind r).append code = d.behind (r.1 ++ code, r.2) := by
  simp [behind, within, append, Array.append_assoc]

@[simp] theorem behind_emit (r : Lowered) (i : Instruction) :
    (d.behind r).emit i = d.behind (r.1 ++ [i], r.2) := by
  simp [behind, within, append, emit]

@[simp] theorem behind_emitBranch (r : Lowered) (kind : BranchKind) :
    (d.behind r).emitBranch kind =
      (d.code.size + r.1.length, d.behind (r.1 ++ [Instruction.branch kind 0], r.2)) := by
  rw [emitBranch, behind_size, behind_emit]

@[simp] theorem append_emitBranch (code : Code) (kind : BranchKind) :
    (d.append code).emitBranch kind =
      (d.code.size + code.length, d.behind (code ++ [Instruction.branch kind 0], d.scopes)) := by
  rw [append_eq, behind_emitBranch]

variable (front body : Code) (scopes : Scopes) (kind : BranchKind) (span : Span)

/-- A branch that was left open is set to lead over what has come since. -/
theorem patch_behind :
    (d.behind (front ++ .branch kind 0 :: body, scopes)).patch (d.code.size + front.length) span =
      (fun distance => d.behind (front ++ .branch kind distance :: body, scopes)) <$>
        Branch.forward body span := by
  have hcode (i : Int16) : (d.behind (front ++ .branch kind i :: body, scopes)).code.toList =
      (d.code.toList ++ front) ++ .branch kind i :: body := by
    simp [behind, within, append]
  have hlength : (d.code.toList ++ front).length = d.code.size + front.length := by simp
  have hrest : (d.behind (front ++ .branch kind 0 :: body, scopes)).code.toList.drop
      (d.code.size + front.length + 1) = body := by
    rw [hcode, ← hlength, ← List.drop_drop, List.drop_left]
    rfl
  have hplace : (d.behind (front ++ .branch kind 0 :: body, scopes)).code[
      d.code.size + front.length]? = some (.branch kind 0) := by
    rw [← Array.getElem?_toList, hcode, ← hlength, List.getElem?_append_right (Nat.le_refl _)]
    simp
  unfold patch
  rw [hrest, hplace]
  cases Branch.forward body span with
  | error e => rfl
  | ok distance =>
    have hset : (d.behind (front ++ .branch kind 0 :: body, scopes)).code.modify
        (d.code.size + front.length) (fun _ => .branch kind distance) =
          (d.behind (front ++ .branch kind distance :: body, scopes)).code := by
      apply Array.toList_inj.mp
      rw [Array.toList_modify, hcode, hcode, ← hlength, List.modify_eq_take_drop,
        List.take_left, List.drop_left]
      rfl
    show Except.ok ({ d.behind (front ++ .branch kind 0 :: body, scopes) with
      code := (d.behind (front ++ .branch kind 0 :: body, scopes)).code.modify
        (d.code.size + front.length) fun _ => .branch kind distance } : Draft) = _
    rw [hset]
    rfl

theorem emitBack_behind :
    (d.behind (front ++ body, scopes)).emitBack kind (d.code.size + front.length) span =
      (fun back => d.behind (front ++ body ++ [Instruction.branch kind back], scopes)) <$>
        Branch.backward body span := by
  have hback : (d.behind (front ++ body, scopes)).code.toList.drop
      (d.code.size + front.length) = body := by
    simp [behind, within, append, List.drop_append]
  unfold emitBack
  rw [hback]
  cases Branch.backward body span with
  | error e => rfl
  | ok back =>
    show Except.ok _ = Except.ok _
    rw [behind_emit]

/-- The last two branches of a loop: back to its test, and from the test behind all of it. -/
theorem close_behind (test : Code) :
    ((d.behind (front ++ (test ++ .branch .ifFalse 0 :: body), scopes)).emitBack .always
        (d.code.size + front.length) span >>= fun e =>
      e.patch (d.code.size + (front ++ test).length) span) =
      (fun code => d.behind (front ++ code, scopes)) <$> loopCode test body span := by
  rw [emitBack_behind]
  unfold loopCode
  cases Branch.backward (test ++ .branch .ifFalse 0 :: body) span with
  | error e => rfl
  | ok back =>
    have hpatch := patch_behind d (front ++ test) (body ++ [Instruction.branch .always back]) scopes
      .ifFalse span
    simp only [List.append_assoc] at hpatch
    show patch _ _ _ = (fun code => d.behind (front ++ code, scopes)) <$>
      (Branch.forward (body ++ [Instruction.branch .always back]) span >>= fun out =>
        pure (test ++ .branch .ifFalse out :: body ++ [Instruction.branch .always back]))
    simp only [List.append_assoc, List.cons_append]
    rw [hpatch]
    cases Branch.forward (body ++ [Instruction.branch .always back]) span <;> rfl

end Draft

mutual

/-- Writes a statement into a draft, its line left out. -/
def emitStmt (env : Env) (d : Draft) : Stmt → Lower Draft
  | .block ⟨body, _⟩ => do
    let d ← emitStmts env (d.within d.scopes.enter) body
    return d.within d.scopes.exit
  | .expr e => do return (d.append (← lower env d.scopes e)).emit .pop
  | .var name init => d.behind <$> lowerVar env d.scopes name init
  | .assign target value => do return d.append (← lowerAssign env d.scopes target value)
  | .return_ none _ => return (d.emit .pushNothing).emit .return_
  | .return_ (some e) _ => do return (d.append (← lower env d.scopes e)).emit .return_
  | .if_ none body _ _ => emitStmt env (d.append (lineMark env body)) body
  | .if_ (some c) body none span => do
    let d := d.append (← lower env d.scopes c)
    let (skip, d) := d.emitBranch .ifFalse
    let d ← emitStmt env (d.append (lineMark env body)) body
    Lower.ofExcept (d.patch skip span)
  | .if_ (some c) body (some arm) span => do
    let d := d.append (← lower env d.scopes c)
    let (skip, d) := d.emitBranch .ifFalse
    let d ← emitStmt env (d.append (lineMark env body)) body
    let (skipArm, d) := d.emitBranch .always
    let d ← Lower.ofExcept (d.patch skip span)
    let d ← emitStmt env (d.append (lineMark env arm)) arm
    Lower.ofExcept (d.patch skipArm span)
  | .while_ c body => do
    let start := d.code.size
    let d := d.append (← lower env d.scopes c)
    let (out, d) := d.emitBranch .ifFalse
    let d ← emitStmt env (d.append (lineMark env body)) body
    let d ← Lower.ofExcept (d.emitBack .always start c.span)
    Lower.ofExcept (d.patch out c.span)
  | .doWhile body c => do
    let start := d.code.size
    let d ← emitStmt env (d.append (lineMark env body)) body
    let d := d.append (← lower env d.scopes c)
    Lower.ofExcept (d.emitBack .ifTrue start c.span)
  | .foreach element collection body => do
    let span := element.span + collection.span
    let (index, scopes) := d.scopes.enter.declareHidden "index"
    let (last, scopes) := scopes.declareHidden "max"
    let i := Slot.ofLocal index
    let m := Slot.ofLocal last
    let d := (d.append [.pushZero, .setVariable i]).within scopes
    let d := d.append (← lower env d.scopes collection)
    let d := d.append [.property .length, .pushInt8 1, .binary .sub, .setVariable m]
    let start := d.code.size
    let d := d.append [.getVariable m, .getVariable i, .binary .greaterEqual]
    let (out, d) := d.emitBranch .ifFalse
    match d.scopes.enclosing with
    | none => throw (.internal "foreach outside a subroutine frame")
    | some frame =>
      match d.scopes.bind element.text (.element collection i.index frame) with
      | none => throw (.duplicateVariable element.text element.span)
      | some scopes =>
        let d := d.within scopes
        let d ← emitStmt env (d.append (lineMark env body)) body
        let d := d.append [.getVariable i, .pushInt8 1, .binary .add, .setVariable i]
        let d ← Lower.ofExcept (d.emitBack .always start span)
        let d ← Lower.ofExcept (d.patch out span)
        return d.within d.scopes.exit
  | .classDecl _ | .property _ | .subroutine _ | .global _ =>
    throw (.internal "declaration inside a subroutine body")
termination_by structural s => s

def emitStmts (env : Env) (d : Draft) : List Stmt → Lower Draft
  | [] => pure d
  | s :: ss => do
    let d ← emitStmt env (d.append (lineMark env s)) s
    emitStmts env d ss
termination_by structural ss => ss

end

namespace Lower

theorem ofExcept_map {α β : Type} (f : α → β) (r : Except CompileError α) :
    ofExcept (f <$> r) = f <$> ofExcept r := by
  cases r <;> rfl

theorem ofExcept_bind {α β : Type} (r : Except CompileError α)
    (f : α → Except CompileError β) :
    ofExcept (r >>= f) = ofExcept r >>= fun a => ofExcept (f a) := by
  cases r <;> rfl

end Lower

/-- With its line in front, too. -/
theorem emit_marked {env : Env} {s : Stmt}
    (h : ∀ d, emitStmt env d s = d.behind <$> lowerStmt env d.scopes s) (d : Draft) :
    emitStmt env (d.append (lineMark env s)) s =
      d.behind <$> marked env s <$> lowerStmt env d.scopes s := by
  rw [h, Functor.map_map]
  congr 1
  funext r
  rw [Draft.append_eq, Draft.behind_behind]
  rfl

section

variable {env : Env} {body : Stmt}
  (hbody : ∀ d, emitStmt env d body = d.behind <$> lowerStmt env d.scopes body)
include hbody

theorem emitIf_eq (c : Expr) (span : Span) (d : Draft) :
    emitStmt env d (.if_ (some c) body none span) =
      d.behind <$> lowerStmt env d.scopes (.if_ (some c) body none span) := by
  have hbody := emit_marked hbody
  rw [emitStmt, lowerStmt, map_bind]
  refine bind_congr fun test => ?_
  simp only [Draft.append_emitBranch, hbody, map_bind, bind_map_left]
  refine bind_congr fun r => ?_
  have hpatch := d.patch_behind test (marked env body r).1 r.2 .ifFalse span
  rw [Draft.behind_behind, List.append_assoc]
  refine (congrArg Lower.ofExcept hpatch).trans ?_
  rw [Lower.ofExcept_map]
  rfl

theorem emitIfElse_eq {arm : Stmt}
    (harm : ∀ d, emitStmt env d arm = d.behind <$> lowerStmt env d.scopes arm) (c : Expr)
    (span : Span) (d : Draft) :
    emitStmt env d (.if_ (some c) body (some arm) span) =
      d.behind <$> lowerStmt env d.scopes (.if_ (some c) body (some arm) span) := by
  have hbody := emit_marked hbody
  have harm := emit_marked harm
  rw [emitStmt, lowerStmt, map_bind]
  refine bind_congr fun test => ?_
  simp only [Draft.append_emitBranch, hbody, map_bind, bind_map_left]
  refine bind_congr fun r => ?_
  generalize marked env body r = r
  have hpatch := d.patch_behind test (r.1 ++ [Instruction.branch .always 0]) r.2 .ifFalse span
  simp only [Draft.behind_behind, Draft.behind_emitBranch, List.append_assoc, List.cons_append,
    List.nil_append] at hpatch ⊢
  rw [hpatch, Lower.ofExcept_map, bind_map_left]
  refine bind_congr fun skip => ?_
  rw [harm, bind_map_left, bind_map_left]
  refine bind_congr fun r' => ?_
  generalize marked env arm r' = r'
  have hpatch' := d.patch_behind (test ++ .branch .ifFalse skip :: r.1) r'.1 r'.2 .always span
  simp only [Draft.behind_behind, List.append_assoc, List.cons_append, List.nil_append,
    List.length_append, List.length_cons] at hpatch' ⊢
  rw [hpatch', Lower.ofExcept_map]
  rfl

theorem emitWhile_eq (c : Expr) (d : Draft) :
    emitStmt env d (.while_ c body) =
      d.behind <$> lowerStmt env d.scopes (.while_ c body) := by
  have hbody := emit_marked hbody
  rw [emitStmt, lowerStmt, map_bind]
  refine bind_congr fun test => ?_
  simp only [Draft.append_emitBranch, hbody, map_bind, bind_map_left]
  refine bind_congr fun r => ?_
  generalize marked env body r = r
  have hclose := congrArg Lower.ofExcept (d.close_behind [] r.1 r.2 c.span test)
  rw [Lower.ofExcept_bind, Lower.ofExcept_map] at hclose
  rw [Draft.behind_behind, List.append_assoc]
  exact hclose

theorem emitDoWhile_eq (c : Expr) (d : Draft) :
    emitStmt env d (.doWhile body c) =
      d.behind <$> lowerStmt env d.scopes (.doWhile body c) := by
  have hbody := emit_marked hbody
  rw [emitStmt, lowerStmt]
  simp only [hbody, map_bind, bind_map_left]
  refine bind_congr fun r => ?_
  generalize marked env body r = r
  refine bind_congr fun test => ?_
  have hback := d.emitBack_behind [] (r.1 ++ test) r.2 .ifTrue c.span
  rw [Draft.behind_append]
  exact (congrArg Lower.ofExcept hback).trans (Lower.ofExcept_map _ _)

theorem emitForeach_eq (element : Token) (collection : Expr) (d : Draft) :
    emitStmt env d (.foreach element collection body) =
      d.behind <$> lowerStmt env d.scopes (.foreach element collection body) := by
  have hbody := emit_marked hbody
  rw [emitStmt, lowerStmt]
  generalize d.scopes.enter.declareHidden "index" = hidden
  obtain ⟨index, scopes⟩ := hidden
  dsimp only
  generalize scopes.declareHidden "max" = hidden
  obtain ⟨last, scopes⟩ := hidden
  dsimp only
  rw [map_bind]
  refine bind_congr fun items => ?_
  simp only [Draft.append_within, Draft.behind_append, Draft.behind_emitBranch,
    Draft.behind_scopes, Draft.behind_within, Draft.behind_size]
  cases scopes.enclosing with
  | none => rfl
  | some frame =>
    dsimp only
    cases scopes.bind element.text (.element collection (Slot.ofLocal index).index frame) with
    | none => rfl
    | some scopes =>
      dsimp only
      generalize [Instruction.pushZero, .setVariable (.ofLocal index)] ++ items ++
        [Instruction.property .length, .pushInt8 1, .binary .sub, .setVariable (.ofLocal last)] =
          setup
      generalize [Instruction.getVariable (.ofLocal last), .getVariable (.ofLocal index),
        .binary .greaterEqual] = test
      generalize [Instruction.getVariable (.ofLocal index), .pushInt8 1, .binary .add,
        .setVariable (.ofLocal index)] = advance
      have hrun := hbody (d.behind (setup ++ test ++ [Instruction.branch .ifFalse 0], scopes))
      rw [Draft.behind_append] at hrun
      simp only [hrun, map_bind, bind_map_left]
      refine bind_congr fun r => ?_
      generalize marked env body r = r
      have hclose := congrArg Lower.ofExcept
        (d.close_behind setup (r.1 ++ advance) r.2 (element.span + collection.span) test)
      rw [Lower.ofExcept_bind, Lower.ofExcept_map] at hclose
      simp only [Draft.behind_behind, Draft.behind_append, List.append_assoc, List.cons_append,
        List.nil_append] at hclose ⊢
      rw [← bind_assoc, hclose, bind_map_left]
      rfl

end

mutual

/-- A statement is written as the code that it is lowered to. -/
theorem emitStmt_eq (env : Env) (d : Draft) (s : Stmt) :
    emitStmt env d s = d.behind <$> lowerStmt env d.scopes s := by
  match s with
  | .block ⟨body, _⟩ =>
    have hbody := emitStmts_eq env d [] d.scopes.enter body
    rw [emitStmt, lowerStmt, Draft.within_eq]
    rw [List.reverse_nil] at hbody
    rw [hbody, map_bind, bind_map_left]
    rfl
  | .expr e =>
    rw [emitStmt, lowerStmt, map_bind]
    refine bind_congr fun code => ?_
    rw [Draft.append_eq, Draft.behind_emit, map_pure]
  | .var name init => rw [emitStmt, lowerStmt]
  | .assign target value =>
    rw [emitStmt, lowerStmt, map_bind]
    rfl
  | .return_ none span =>
    rw [emitStmt, lowerStmt, map_pure, Draft.emit_eq d, Draft.append_eq, Draft.behind_emit]
    rfl
  | .return_ (some e) _ =>
    rw [emitStmt, lowerStmt, map_bind]
    refine bind_congr fun code => ?_
    rw [Draft.append_eq, Draft.behind_emit, map_pure]
  | .if_ none body _ _ => rw [emitStmt, lowerStmt, emit_marked fun d => emitStmt_eq env d body]
  | .if_ (some c) body none span => exact emitIf_eq (fun d => emitStmt_eq env d body) c span d
  | .if_ (some c) body (some arm) span =>
    exact emitIfElse_eq (fun d => emitStmt_eq env d body) (fun d => emitStmt_eq env d arm) c span d
  | .while_ c body => exact emitWhile_eq (fun d => emitStmt_eq env d body) c d
  | .doWhile body c => exact emitDoWhile_eq (fun d => emitStmt_eq env d body) c d
  | .foreach element collection body =>
    exact emitForeach_eq (fun d => emitStmt_eq env d body) element collection d
  | .classDecl _ | .property _ | .subroutine _ | .global _ =>
    rw [emitStmt, lowerStmt]
    rfl

theorem emitStmts_eq (env : Env) (d : Draft) (acc : Code) (scopes : Scopes) (ss : List Stmt) :
    emitStmts env (d.behind (acc.reverse, scopes)) ss =
      d.behind <$> lowerStmts env acc scopes ss := by
  match ss with
  | [] => rw [emitStmts, lowerStmts, map_pure]
  | s :: ss =>
    rw [emitStmts, lowerStmts, emit_marked fun d => emitStmt_eq env d s, map_bind, bind_map_left]
    refine bind_congr fun r => ?_
    have hrest := emitStmts_eq env d (r.1.reverse ++ acc) r.2 ss
    rw [List.reverse_append, List.reverse_reverse] at hrest
    rw [Draft.behind_behind, hrest]

end

theorem Draft.start_code {name : String} {parameters : List Token} {isMethod : Bool} {d : Draft}
    (h : Draft.start name parameters isMethod = .ok d) : d.code = #[] := by
  unfold Draft.start at h
  split at h
  · cases h
    rfl
  · split at h
    · cases h
    · split at h
      · cases h
        rfl
      · cases h

/-- A subroutine, its body written into one draft. -/
def emitSubroutine (env : Env) (s : Subroutine) : Lower Code := do
  let draft ← Lower.ofExcept (Draft.start s.name.text s.parameters env.owner.isSome)
  let draft ← emitStmts env draft s.body.statements
  let endsInReturn := s.body.statements.getLast?.any Stmt.isReturn
  Lower.ofExcept (draft.finish endsInReturn s.name.span)

/-- Written in one pass with branches set afterwards, a subroutine is the code that it is lowered
to, or fails with the same error. -/
theorem emitSubroutine_eq (env : Env) (s : Subroutine) :
    emitSubroutine env s = lowerSubroutine env s := by
  unfold emitSubroutine lowerSubroutine
  cases hd : Draft.start s.name.text s.parameters env.owner.isSome with
  | error e => rfl
  | ok d =>
    have hbody := emitStmts_eq env d [] d.scopes s.body.statements
    rw [List.reverse_nil, ← Draft.within_eq] at hbody
    show emitStmts env (d.within d.scopes) s.body.statements >>= _ =
      lowerStmts env [] d.scopes s.body.statements >>= _
    rw [hbody, bind_map_left]
    refine bind_congr fun r => ?_
    have hcode : d.behind r = { d with code := r.1.toArray, scopes := r.2 } := by
      rw [Draft.behind, Draft.append, Draft.start_code hd, Array.empty_append]
      rfl
    rw [hcode]

end Lss
