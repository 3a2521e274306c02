import Mathlib.Data.List.Forall2
import Lss.Proofs.EmitsBody

/-!
# What variables a body accesses

The reads and assignments of names in a tree, in the order of evaluation, with what each name stands
for where it stands: a local of its own slot, or a global. The element of a loop reads as the
collection and the counter do. Lowering emits an instruction on a variable for each of them, in the
same order, and no others.
-/
namespace Lss

inductive Referent where
  | own (slot : UInt16)
  | global (name : String)
deriving DecidableEq, Repr

inductive Access (ρ : Type) where
  | get (r : ρ)
  | set (r : ρ)
deriving DecidableEq, Repr

def Access.Rel {ρ σ : Type} (R : ρ → σ → Prop) : Access ρ → Access σ → Prop
  | .get a, .get b | .set a, .set b => R a b
  | _, _ => False

theorem Access.Rel.imp {ρ σ : Type} {R R' : ρ → σ → Prop} (h : ∀ a b, R a b → R' a b) :
    ∀ {a : Access ρ} {b : Access σ}, Access.Rel R a b → Access.Rel R' a b
  | .get _, .get _, hab | .set _, .set _, hab => h _ _ hab

/-! Instructions. -/

def Instruction.access? : Instruction → Option (Access Slot)
  | .getVariable s => some (.get s)
  | .setVariable s => some (.set s)
  | _ => none

namespace Code

def accesses (code : Code) : List (Access Slot) := code.filterMap Instruction.access?

variable {a b : Code} {i : Instruction} {s : Slot}

@[simp] theorem accesses_nil : accesses [] = [] := rfl

@[simp] theorem accesses_append : accesses (a ++ b) = accesses a ++ accesses b :=
  List.filterMap_append

theorem accesses_cons : accesses (i :: a) = i.access?.toList ++ accesses a := by
  unfold accesses
  cases h : i.access? <;> simp [h]

theorem accesses_eq_nil (h : ∀ i ∈ a, i.access? = none) : accesses a = [] :=
  List.filterMap_eq_nil_iff.mpr h

theorem accesses_lineMark (env : Env) (st : Stmt) : accesses (lineMark env st) = [] := by
  unfold lineMark
  split <;> rfl

end Code

/-! Trees. -/

namespace Expr

mutual

/-- What an expression does to variables, if reading a name does what `read` says. -/
def accesses (read : Token → List (Access Referent)) : Expr → List (Access Referent)
  | .literal _ | .pending _ | .construct _ none _ => []
  | .variable t =>
    match t.kind with
    | .keyword .this => [.get (.own 0)]
    | .identifier => read t
    | _ => []
  | .grouping e | .unary _ e _ => accesses read e
  | .binary left op right =>
    match op.kind with
    | .access .member =>
      match right with
      | .variable member =>
        if !member.kind.isProperty && left.isThis then [] else accesses read left
      | _ => []
    | .access .scope => []
    | .access .dynamicScope => accesses read right
    | _ => accesses read left ++ accesses read right
  | .index a i _ => accesses read a ++ accesses read i
  | .array es _ | .construct _ (some es) _ => allAccesses read es
  | .call target es _ =>
    match target with
    | .binary left op right =>
      match op.kind with
      | .access .member => (if left.isThis then [] else accesses read left) ++ allAccesses read es
      | .access .dynamicMember => accesses read left ++ accesses read right ++ allAccesses read es
      | .access .dynamicScope => accesses read right ++ allAccesses read es
      | _ => allAccesses read es
    | _ => allAccesses read es
termination_by structural e => e

def allAccesses (read : Token → List (Access Referent)) : List Expr → List (Access Referent)
  | [] => []
  | e :: es => accesses read e ++ allAccesses read es
termination_by structural es => es

end

end Expr

namespace Scopes

def readsFrom (scopes : Scopes) (frame : Nat) (t : Token) : List (Access Referent) :=
  match scopes.resolveFrom t.text frame with
  | none => [.get (.global t.text)]
  | some (.slot i) => [.get (.own i)]
  | some (.element collection i outer) =>
    if outer < frame then
      collection.accesses (fun t => scopes.readsFrom outer t) ++ [Access.get (.own i)]
    else []
termination_by frame

def reads (scopes : Scopes) (frame : Option Nat) (t : Token) : List (Access Referent) :=
  match frame with
  | some frame => scopes.readsFrom frame t
  | none => [.get (.global t.text)]

def accesses (scopes : Scopes) (e : Expr) : List (Access Referent) :=
  e.accesses (scopes.reads scopes.current)

def sets (scopes : Scopes) (t : Token) : List (Access Referent) :=
  match scopes.resolve t.text with
  | none => [.set (.global t.text)]
  | some (.slot i) => [.set (.own i)]
  | some (.element _ _ _) => []

def assigns (scopes : Scopes) (target value : Expr) : List (Access Referent) :=
  match target with
  | .variable t => scopes.accesses value ++ scopes.sets t
  | .binary left op right =>
    match op.kind with
    | .access .member => (if left.isThis then [] else scopes.accesses left) ++ scopes.accesses value
    | .access .dynamicMember =>
      scopes.accesses left ++ scopes.accesses right ++ scopes.accesses value
    | _ => scopes.accesses value
  | .index a i _ => scopes.accesses a ++ scopes.accesses i ++ scopes.accesses value
  | _ => []

end Scopes

namespace Stmt

mutual

/-- What a statement does to variables, and the scopes behind it. A loop over a collection sets its
counter and its bound before the first round, compares them in front of each and counts behind. -/
def accesses (scopes : Scopes) : Stmt → List (Access Referent) × Scopes
  | .block ⟨ss, _⟩ =>
    let (inner, scopes) := allAccesses scopes.enter ss
    (inner, scopes.exit)
  | .expr e | .return_ (some e) _ => (scopes.accesses e, scopes)
  | .return_ none _ => ([], scopes)
  | .var name init =>
    let value := init.elim [] scopes.accesses
    match scopes.declare name.text with
    | some (i, scopes) => (value ++ [Access.set (.own i)], scopes)
    | none => (value, scopes)
  | .assign target value => (scopes.assigns target value, scopes)
  | .if_ none body _ _ => accesses scopes body
  | .if_ (some c) body none _ | .while_ c body =>
    let test := scopes.accesses c
    let (inner, scopes) := accesses scopes body
    (test ++ inner, scopes)
  | .if_ (some c) body (some arm) _ =>
    let test := scopes.accesses c
    let (inner, scopes) := accesses scopes body
    let (other, scopes) := accesses scopes arm
    (test ++ inner ++ other, scopes)
  | .doWhile body c =>
    let (inner, scopes) := accesses scopes body
    (inner ++ scopes.accesses c, scopes)
  | .foreach element collection body =>
    let (index, scopes) := scopes.enter.declareHidden "index"
    let (last, scopes) := scopes.declareHidden "max"
    let items := scopes.accesses collection
    let v := Variable.element collection (Slot.ofLocal index).index (scopes.enclosing.getD 0)
    let (inner, scopes) := accesses ((scopes.bind element.text v).getD scopes) body
    (.set (.own index) :: items ++ [Access.set (.own last), .get (.own last), .get (.own index)]
      ++ inner ++ [Access.get (.own index), .set (.own index)], scopes.exit)
  | .classDecl _ | .property _ | .subroutine _ | .global _ => ([], scopes)
termination_by structural s => s

def allAccesses (scopes : Scopes) : List Stmt → List (Access Referent) × Scopes
  | [] => ([], scopes)
  | s :: ss =>
    let (first, scopes) := accesses scopes s
    let (rest, scopes) := allAccesses scopes ss
    (first ++ rest, scopes)
termination_by structural ss => ss

end

end Stmt

def SubroutineOf.accesses (isMethod : Bool) (s : Subroutine) : List (Access Referent) :=
  match Draft.start s.name.text s.parameters isMethod with
  | .ok d => (Stmt.allAccesses d.scopes s.body.statements).1
  | .error _ => []

/-! Lowering. -/

def Referent.Lowered (globals : NameTable) : Referent → Slot → Prop
  | .own i, s => s = .ofLocal i
  | .global name, s => ∃ k, globals.find? name = some k ∧ s = .ofGlobal k

def Accessed (R : Referent → Slot → Prop) (as : List (Access Referent)) (code : Code) : Prop :=
  List.Forall₂ (Access.Rel R) as code.accesses

section

variable {R : Referent → Slot → Prop} {as bs : List (Access Referent)} {a b code : Code}

theorem Accessed.append (h : Accessed R as a) (k : Accessed R bs b) :
    Accessed R (as ++ bs) (a ++ b) := by
  unfold Accessed
  rw [Code.accesses_append]
  exact List.rel_append h k

/-- Instructions on no variable in front. -/
theorem Accessed.behind (h : Accessed R bs b) (ha : Code.accesses a = []) :
    Accessed R bs (a ++ b) := by
  unfold Accessed
  rw [Code.accesses_append, ha]
  exact h

/-- And behind. -/
theorem Accessed.ahead (h : Accessed R as a) (hb : Code.accesses b = []) :
    Accessed R as (a ++ b) := by
  unfold Accessed
  rw [Code.accesses_append, hb, List.append_nil]
  exact h

theorem Accessed.get {r : Referent} {s : Slot} (h : R r s) :
    Accessed R [.get r] [.getVariable s] := .cons h .nil

theorem Accessed.set {r : Referent} {s : Slot} (h : R r s) :
    Accessed R [.set r] [.setVariable s] := .cons h .nil

theorem Accessed.nil (h : Code.accesses a = []) : Accessed R [] a := by
  unfold Accessed
  rw [h]
  exact .nil

end

section

variable {env : Env} {scopes : Scopes}

theorem Scopes.reads_none {frame : Option Nat} {t : Token}
    (h : scopes.lookup frame t.text = none) : scopes.reads frame t = [.get (.global t.text)] := by
  cases frame with
  | none => rfl
  | some frame =>
    have h : scopes.resolveFrom t.text frame = none := h
    rw [reads, readsFrom, h]

theorem Scopes.reads_slot {frame : Option Nat} {t : Token} {i : UInt16}
    (h : scopes.lookup frame t.text = some (.slot i)) :
    scopes.reads frame t = [.get (.own i)] := by
  cases frame with
  | none => cases h
  | some frame =>
    have h : scopes.resolveFrom t.text frame = some (.slot i) := h
    rw [reads, readsFrom, h]

theorem Scopes.reads_element {frame : Nat} {t : Token} {collection : Expr} {i : UInt16}
    {outer : Nat} (h : scopes.lookup (some frame) t.text = some (.element collection i outer))
    (hlt : outer < frame) : scopes.reads (some frame) t =
      collection.accesses (scopes.reads (some outer)) ++ [Access.get (.own i)] := by
  have h : scopes.resolveFrom t.text frame = some (.element collection i outer) := h
  rw [reads, readsFrom, h]
  exact if_pos hlt

theorem Instruction.access?_of_isConstant {i : Instruction} (h : i.isConstant) :
    i.access? = none := by
  cases i <;> first | rfl | cases h

theorem TokenKind.isProperty_eq_false {kind : TokenKind} (h : ∀ p, kind ≠ .property p) :
    kind.isProperty = false := by
  unfold isProperty
  split
  · next p => exact absurd rfl (h p)
  · rfl

mutual

theorem Expr.Emits.accessed {frame : Option Nat} {e : Expr} {code : Code} :
    Expr.Emits env scopes frame e code →
      Accessed (Referent.Lowered env.globals) (e.accesses (scopes.reads frame)) code
  | .literal hi => by
    simp only [Expr.accesses]
    exact .nil (Code.accesses_eq_nil fun i h => by
      rw [List.mem_singleton.mp h]
      exact Instruction.access?_of_isConstant hi)
  | .this hk _ => by
    simp only [Expr.accesses, hk]
    exact .get rfl
  | .slot hk h => by
    simp only [Expr.accesses, hk, Scopes.reads_slot h]
    exact .get rfl
  | .global hk h hfind => by
    simp only [Expr.accesses, hk, Scopes.reads_none h]
    exact .get ⟨_, hfind, rfl⟩
  | .element hk h hlt hcode => by
    simp only [Expr.accesses, hk, Scopes.reads_element h hlt]
    exact hcode.accessed.append (.get rfl)
  | .grouping h => by
    simp only [Expr.accesses]
    exact h.accessed
  | .unary _ h => by
    simp only [Expr.accesses]
    exact h.accessed.ahead rfl
  | .property hop hk h => by
    simp only [Expr.accesses, hop, hk, TokenKind.isProperty, Bool.not_true, Bool.false_and]
    exact h.accessed.ahead rfl
  | .thisMember hop hk hthis _ => by
    simp only [Expr.accesses, hop, TokenKind.isProperty_eq_false hk, hthis]
    exact .nil rfl
  | .member hop _ hthis h => by
    simp only [Expr.accesses, hop, hthis, Bool.and_false]
    exact h.accessed.ahead rfl
  | .dynamicMember hop h k => by
    simp only [Expr.accesses, hop]
    exact (h.accessed.append k.accessed).ahead rfl
  | .gameVariable hop => by
    simp only [Expr.accesses, hop]
    exact .nil rfl
  | .dynamicGameVariable hop h => by
    simp only [Expr.accesses, hop]
    exact h.accessed.ahead rfl
  | .binary hop h k => by
    simp only [Expr.accesses, hop]
    exact (h.accessed.append k.accessed).ahead rfl
  | .index h k => by
    simp only [Expr.accesses]
    exact (h.accessed.append k.accessed).ahead rfl
  | .array _ h => by
    simp only [Expr.accesses]
    exact h.accessed.ahead rfl
  | .call _ _ h => by
    simp only [Expr.accesses]
    exact h.accessed.ahead rfl
  | .callThisMethod _ hop hthis _ h => by
    simp only [Expr.accesses, hop, hthis]
    exact h.accessed.ahead rfl
  | .callArray _ hop hthis _ h k => by
    simp only [Expr.accesses, hop, hthis]
    exact (h.accessed.append k.accessed).ahead rfl
  | .callMethod _ hop hthis _ h k => by
    simp only [Expr.accesses, hop, hthis]
    exact ((h.accessed.ahead rfl).append k.accessed).ahead rfl
  | .callDynamicMethod _ hop h k l => by
    simp only [Expr.accesses, hop]
    exact (((h.accessed.ahead rfl).append k.accessed).append l.accessed).ahead rfl
  | .callGame _ hop h => by
    simp only [Expr.accesses, hop]
    exact h.accessed.ahead rfl
  | .callDynamicGame _ hop h k => by
    simp only [Expr.accesses, hop]
    exact (h.accessed.append k.accessed).ahead rfl
  | @Expr.Emits.create _ _ _ _ arguments _ _ hnone => by
    cases arguments with
    | none =>
      simp only [Expr.accesses]
      exact .nil rfl
    | some es =>
      simp only [hnone es rfl, Expr.accesses, Expr.allAccesses]
      exact .nil rfl
  | .construct _ h => by
    simp only [Expr.accesses]
    exact (h.accessed.behind rfl).ahead rfl

theorem Expr.EmitsAll.accessed {frame : Option Nat} {es : List Expr} {code : Code} :
    Expr.EmitsAll env scopes frame es code →
      Accessed (Referent.Lowered env.globals) (Expr.allAccesses (scopes.reads frame) es) code
  | .nil => by
    simp only [Expr.allAccesses]
    exact .nil rfl
  | .cons h k => by
    simp only [Expr.allAccesses]
    exact h.accessed.append k.accessed

end

theorem Accessed.marked {R : Referent → Slot → Prop} {as : List (Access Referent)} {code : Code}
    (h : Accessed R as code) (s : Stmt) : Accessed R as (lineMark env s ++ code) :=
  h.behind (Code.accesses_lineMark env s)

theorem Code.accesses_foreachCode (i m : Slot) (items body : Code) (out back : Int16) :
    accesses (foreachCode i m items body out back) =
      .set i :: accesses items ++ [Access.set m, .get m, .get i] ++ accesses body
        ++ [Access.get i, .set i] := by
  simp [foreachCode, accesses_cons, Instruction.access?]

theorem Accessed.foreach {R : Referent → Slot → Prop} {as bs : List (Access Referent)}
    {items body : Code} {index last : Referent} {i m : Slot} {out back : Int16}
    (h : Accessed R as items) (k : Accessed R bs body) (hi : R index i) (hm : R last m) :
    Accessed R (.set index :: as ++ [Access.set last, .get last, .get index] ++ bs
      ++ [Access.get index, .set index]) (foreachCode i m items body out back) := by
  have hset (r : Referent) (s : Slot) (hrs : R r s) : Access.Rel R (.set r) (.set s) := hrs
  have hget (r : Referent) (s : Slot) (hrs : R r s) : Access.Rel R (.get r) (.get s) := hrs
  unfold Accessed
  rw [Code.accesses_foreachCode]
  refine List.rel_append (List.rel_append (List.rel_append (.cons (hset _ _ hi) h) ?_) k) ?_
  · exact .cons (hset _ _ hm) (.cons (hget _ _ hm) (.cons (hget _ _ hi) .nil))
  · exact .cons (hget _ _ hi) (.cons (hset _ _ hi) .nil)

mutual

theorem Stmt.Emits.accessed {S U : Scopes} {s : Stmt} {code : Code} : Stmt.Emits env S s code U →
    ∃ as, s.accesses S = (as, U) ∧ Accessed (Referent.Lowered env.globals) as code
  | .block h => by
    obtain ⟨as, heq, has⟩ := h.accessed
    simp only [Stmt.accesses, heq]
    exact ⟨as, rfl, has⟩
  | .expr h => by
    simp only [Stmt.accesses]
    exact ⟨_, rfl, h.accessed.ahead rfl⟩
  | .varNothing hd => by
    simp only [Stmt.accesses, hd]
    exact ⟨_, rfl, .set rfl⟩
  | .var h hd => by
    simp only [Stmt.accesses, hd]
    exact ⟨_, rfl, h.accessed.append (.set rfl)⟩
  | .assignLocal _ hr h => by
    simp only [Stmt.accesses, Scopes.assigns, Scopes.sets, hr]
    exact ⟨_, rfl, h.accessed.append (.set rfl)⟩
  | .assignGlobal _ hr hfind h => by
    simp only [Stmt.accesses, Scopes.assigns, Scopes.sets, hr]
    exact ⟨_, rfl, h.accessed.append (.set ⟨_, hfind, rfl⟩)⟩
  | .assignThisMember hop hthis _ h => by
    simp only [Stmt.accesses, Scopes.assigns, hop, hthis]
    exact ⟨_, rfl, h.accessed.ahead rfl⟩
  | .assignMember hop hthis h k => by
    simp only [Stmt.accesses, Scopes.assigns, hop, hthis]
    exact ⟨_, rfl, (h.accessed.append k.accessed).ahead rfl⟩
  | .assignDynamicMember hop h k l => by
    simp only [Stmt.accesses, Scopes.assigns, hop]
    exact ⟨_, rfl, ((h.accessed.append k.accessed).append l.accessed).ahead rfl⟩
  | .assignGame hop h => by
    simp only [Stmt.accesses, Scopes.assigns, hop]
    exact ⟨_, rfl, h.accessed.ahead rfl⟩
  | .assignElement h k l => by
    simp only [Stmt.accesses, Scopes.assigns]
    exact ⟨_, rfl, ((h.accessed.append k.accessed).append l.accessed).ahead rfl⟩
  | .returnNothing => by
    simp only [Stmt.accesses]
    exact ⟨_, rfl, .nil rfl⟩
  | .return_ h => by
    simp only [Stmt.accesses]
    exact ⟨_, rfl, h.accessed.ahead rfl⟩
  | .always h => by
    obtain ⟨as, heq, has⟩ := h.accessed
    simp only [Stmt.accesses, heq]
    exact ⟨as, rfl, has.marked _⟩
  | .if_ h k => by
    obtain ⟨as, heq, has⟩ := k.accessed
    simp only [Stmt.accesses, heq]
    exact ⟨_, rfl, h.accessed.append ((has.marked _).behind (a := [_]) rfl)⟩
  | .ifElse h k l => by
    obtain ⟨as, heq, has⟩ := k.accessed
    obtain ⟨bs, heq', hbs⟩ := l.accessed
    simp only [Stmt.accesses, heq, heq']
    exact ⟨_, rfl, (h.accessed.append ((has.marked _).behind (a := [_]) rfl)).append
      ((hbs.marked _).behind (a := [_]) rfl)⟩
  | .while_ h k => by
    obtain ⟨as, heq, has⟩ := k.accessed
    simp only [Stmt.accesses, heq]
    exact ⟨_, rfl, (h.accessed.append ((has.marked _).behind (a := [_]) rfl)).ahead rfl⟩
  | .doWhile h k => by
    obtain ⟨as, heq, has⟩ := h.accessed
    simp only [Stmt.accesses, heq]
    exact ⟨_, rfl, ((has.marked _).append k.accessed).ahead rfl⟩
  | .foreach hheads h k => by
    obtain ⟨as, heq, has⟩ := k.accessed
    obtain ⟨rfl, rfl, rfl, hframe, hbind⟩ := hheads
    simp only [Stmt.accesses, hframe, Option.getD_some, hbind, heq]
    exact ⟨_, rfl, h.accessed.foreach (has.marked _) rfl rfl⟩

theorem Stmt.EmitsAll.accessed {S U : Scopes} {ss : List Stmt} {code : Code} :
    Stmt.EmitsAll env S ss code U →
      ∃ as, Stmt.allAccesses S ss = (as, U) ∧ Accessed (Referent.Lowered env.globals) as code
  | .nil => by
    simp only [Stmt.allAccesses]
    exact ⟨[], rfl, .nil rfl⟩
  | .cons h k => by
    obtain ⟨as, heq, has⟩ := h.accessed
    obtain ⟨bs, heq', hbs⟩ := k.accessed
    simp only [Stmt.allAccesses, heq, heq']
    exact ⟨_, rfl, (has.marked _).append hbs⟩

end

/-- The code of a subroutine accesses what the subroutine does, and nothing else. -/
theorem Subroutine.Emits.accessed {s : Subroutine} {code : Code} {u : Scopes}
    (h : s.Emits env code u) :
    Accessed (Referent.Lowered env.globals) (s.accesses env.owner.isSome) code := by
  obtain ⟨hstart, hbody, -, hprologue⟩ := h
  obtain ⟨as, heq, has⟩ := hbody.accessed
  unfold SubroutineOf.accesses
  rw [hstart]
  dsimp only
  rw [heq]
  refine (has.behind (Code.accesses_eq_nil fun i hi => ?_)).ahead ?_
  · cases i <;> first | rfl | cases hprologue _ hi
  · split <;> rfl

theorem lowerSubroutine_accessed (env : Env) (s : Subroutine) :
    Lower.Gives (lowerSubroutine env s)
      (Accessed (Referent.Lowered env.globals) (s.accesses env.owner.isSome)) :=
  (lowerSubroutine_emits env s).imp fun _ ⟨_, h⟩ => h.accessed

end

end Lss
