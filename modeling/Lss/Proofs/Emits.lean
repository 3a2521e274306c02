import Mathlib.Tactic.SplitIfs
import Lss.Lowering.Stmt
import Lss.Proofs.Contract

/-!
# What successful lowering emits

The code of a tree, as a relation that follows the tree. Which symbols and strings stand for names
is left open, and so are distances of branches; what names resolve to is not. Every successful run
is an instance, whatever pool it starts from.
-/
namespace Lss

namespace Lower

variable {α β : Type} {f : Lower α} {Q : α → Prop}

def Gives (f : Lower α) (Q : α → Prop) : Prop :=
  ∀ p a q, f.run.run p = (.ok a, q) → Q a

theorem Gives.pure {a : α} (h : Q a) : Gives (pure a) Q := by
  intro p b q hb
  cases hb
  exact h

theorem Gives.throw (e : CompileError) : Gives (throw e) Q := by
  intro p b q hb
  cases hb

theorem Gives.any (f : Lower α) : Gives f fun _ => True := fun _ _ _ _ => trivial

theorem Gives.bind {g : α → Lower β} {R : β → Prop} (hf : Gives f Q)
    (hg : ∀ a, Q a → Gives (g a) R) : Gives (f >>= g) R := by
  intro p b q hb
  obtain ⟨a, r, ha, hb⟩ := run_bind_eq_ok.mp hb
  exact hg a (hf p a r ha) r b q hb

theorem Gives.throw_bind (e : CompileError) {g : α → Lower β} {R : β → Prop} :
    Gives (MonadExcept.throw e >>= g) R :=
  .bind (.throw e : Gives _ fun _ => False) fun _ h => h.elim

theorem Gives.imp {R : α → Prop} (hf : Gives f Q) (h : ∀ a, Q a → R a) : Gives f R :=
  fun p a q ha => h a (hf p a q ha)

theorem Gives.map {g : α → β} {R : β → Prop} (hf : Gives f fun a => R (g a)) :
    Gives (g <$> f) R := by
  rw [map_eq_pure_bind]
  exact hf.bind fun a h => .pure h

theorem Gives.ofExcept (f : Except CompileError α) : Gives (ofExcept f) fun a => f = .ok a := by
  cases f with
  | ok a => exact .pure rfl
  | error e => exact .throw e

end Lower

open Lower

def Instruction.isConstant : Instruction → Bool
  | .pushNothing | .pushTrue | .pushFalse | .pushZero | .pushInt8 _ | .pushInt16 _ | .pushInt32 _
  | .pushFloat _ | .pushString _ => true
  | _ => false

/-- What a name stands for, looked up from a frame or from outside of all frames. -/
def Scopes.lookup (s : Scopes) (frame : Option Nat) (name : String) : Option Variable :=
  frame.bind (s.resolveFrom name)

mutual

inductive Expr.Emits (env : Env) (scopes : Scopes) : Option Nat → Expr → Code → Prop
  | literal {frame t i} : i.isConstant → Emits env scopes frame (.literal t) [i]
  | this {frame t} : t.kind = .keyword .this → env.owner.isSome →
      Emits env scopes frame (.variable t) [.getVariable (.ofLocal 0)]
  | slot {frame t i} : t.kind = .identifier → scopes.lookup frame t.text = some (.slot i) →
      Emits env scopes frame (.variable t) [.getVariable (.ofLocal i)]
  | global {frame t k} : t.kind = .identifier → scopes.lookup frame t.text = none →
      env.globals.find? t.text = some k →
      Emits env scopes frame (.variable t) [.getVariable (.ofGlobal k)]
  | element {frame t collection index outer code} : t.kind = .identifier →
      scopes.lookup (some frame) t.text = some (.element collection index outer) →
      outer < frame → Emits env scopes (some outer) collection code →
      Emits env scopes (some frame) (.variable t)
        (code ++ [Instruction.getVariable (.ofLocal index), .getElement])
  | grouping {frame e code} : Emits env scopes frame e code →
      Emits env scopes frame (.grouping e) code
  | unary {frame op e leads code o} : UnaryOp.ofKind? op.kind = some o →
      Emits env scopes frame e code →
      Emits env scopes frame (.unary op e leads) (code ++ [Instruction.unary o])
  | property {frame left op member p code} : op.kind = .access .member →
      member.kind = .property p → Emits env scopes frame left code →
      Emits env scopes frame (.binary left op (.variable member)) (code ++ [Instruction.property p])
  | thisMember {frame left op member s} : op.kind = .access .member →
      (∀ p, member.kind ≠ .property p) → left.isThis → env.owner.isSome →
      Emits env scopes frame (.binary left op (.variable member)) [.getThisMember s]
  | member {frame left op member s code} : op.kind = .access .member →
      (∀ p, member.kind ≠ .property p) → left.isThis = false →
      Emits env scopes frame left code →
      Emits env scopes frame (.binary left op (.variable member))
        (code ++ [Instruction.getMember s])
  | dynamicMember {frame left op right a b} : op.kind = .access .dynamicMember →
      Emits env scopes frame left a → Emits env scopes frame right b →
      Emits env scopes frame (.binary left op right) (a ++ b ++ [Instruction.getDynamicMember])
  | gameVariable {frame left op right s n} : op.kind = .access .scope →
      Emits env scopes frame (.binary left op right) [.getGameVariable s n]
  | dynamicGameVariable {frame left op right s code} : op.kind = .access .dynamicScope →
      Emits env scopes frame right code →
      Emits env scopes frame (.binary left op right)
        (code ++ [Instruction.getDynamicGameVariable s])
  | binary {frame left op right o a b} : op.kind = .binary o → Emits env scopes frame left a →
      Emits env scopes frame right b →
      Emits env scopes frame (.binary left op right) (a ++ b ++ [Instruction.binary o])
  | index {frame array at_ span a b} : Emits env scopes frame array a →
      Emits env scopes frame at_ b →
      Emits env scopes frame (.index array at_ span) (a ++ b ++ [Instruction.getElement])
  | array {frame elements span code} : elements.length ≤ 65535 →
      EmitsAll env scopes frame elements code →
      Emits env scopes frame (.array elements span)
        (code ++ [Instruction.createArray (UInt16.ofNat elements.length)])
  | call {frame f arguments span code} : arguments.length ≤ 255 → f.kind = .identifier →
      EmitsAll env scopes frame arguments code →
      Emits env scopes frame (.call (.variable f) arguments span)
        (code ++ [Instruction.unresolvedCall f.text (UInt8.ofNat arguments.length)])
  | callThisMethod {frame left op member arguments span m code} : arguments.length ≤ 255 →
      op.kind = .access .member → left.isThis → env.owner.isSome →
      EmitsAll env scopes frame arguments code →
      Emits env scopes frame (.call (.binary left op (.variable member)) arguments span)
        (code ++ [Instruction.callThisMethod m (UInt8.ofNat arguments.length)])
  | callArray {frame left op member arguments span o a b} : arguments.length = o.arity →
      op.kind = .access .member → left.isThis = false → ArrayOp.ofName? member.text = some o →
      Emits env scopes frame left a → EmitsAll env scopes frame arguments b →
      Emits env scopes frame (.call (.binary left op (.variable member)) arguments span)
        (a ++ b ++ [Instruction.array o])
  | callMethod {frame left op member arguments span m a b} : arguments.length ≤ 255 →
      op.kind = .access .member → left.isThis = false → ArrayOp.ofName? member.text = none →
      Emits env scopes frame left a → EmitsAll env scopes frame arguments b →
      Emits env scopes frame (.call (.binary left op (.variable member)) arguments span)
        (a ++ [Instruction.dup] ++ b ++ [Instruction.callMethod m (UInt8.ofNat arguments.length)])
  | callDynamicMethod {frame left op right arguments span a b c} : arguments.length ≤ 255 →
      op.kind = .access .dynamicMember → Emits env scopes frame left a →
      Emits env scopes frame right b → EmitsAll env scopes frame arguments c →
      Emits env scopes frame (.call (.binary left op right) arguments span)
        (a ++ [Instruction.dup] ++ b ++ c
          ++ [Instruction.callDynamicMethod (UInt8.ofNat arguments.length)])
  | callGame {frame left op right arguments span s n code} : arguments.length ≤ 255 →
      op.kind = .access .scope → EmitsAll env scopes frame arguments code →
      Emits env scopes frame (.call (.binary left op right) arguments span)
        (code ++ [Instruction.callGameFunction s n (UInt8.ofNat arguments.length)])
  | callDynamicGame {frame left op right arguments span s a b} : arguments.length ≤ 255 →
      op.kind = .access .dynamicScope → Emits env scopes frame right a →
      EmitsAll env scopes frame arguments b →
      Emits env scopes frame (.call (.binary left op right) arguments span)
        (a ++ b ++ [Instruction.callDynamicGameFunction s (UInt8.ofNat arguments.length)])
  | create {frame type arguments span s} : (∀ es ∈ arguments, es = []) →
      Emits env scopes frame (.construct type arguments span) [.createObject s]
  | construct {frame type arguments span s code} : arguments.length ≤ 255 →
      EmitsAll env scopes frame arguments code →
      Emits env scopes frame (.construct type (some arguments) span)
        ([.createObject s, .dup] ++ code
          ++ [Instruction.lookupMethod s, .callIndirect (UInt8.ofNat arguments.length), .pop])

inductive Expr.EmitsAll (env : Env) (scopes : Scopes) : Option Nat → List Expr → Code → Prop
  | nil {frame} : EmitsAll env scopes frame [] []
  | cons {frame e es a b} : Emits env scopes frame e a → EmitsAll env scopes frame es b →
      EmitsAll env scopes frame (e :: es) (a ++ b)

end

section

variable {env : Env} {scopes : Scopes} {frame : Option Nat} {read : Token → Lower Code}

theorem ownerOf_gives (this : Expr) : Gives (env.ownerOf this) fun _ => env.owner.isSome := by
  unfold Env.ownerOf
  split
  · next h => exact .pure (by rw [h]; rfl)
  · exact .throw _

theorem checkArity_gives (name : String) (expected found : Nat) (span : Span) :
    Gives (checkArity name expected found span) fun _ => expected = found := by
  unfold checkArity
  split
  · next h => exact .pure h
  · exact .throw _

/-- A constructor that is run takes as many arguments as fit a byte, and one that is not run takes
none. -/
theorem planConstruct_gives (type : Token) (arguments : Option Nat) (span : Span) :
    Gives (planConstruct env type arguments span) fun r =>
      ∀ n ∈ arguments, if r.2 then n ≤ 255 else n = 0 := by
  unfold planConstruct
  split
  · exact .throw _
  · refine .bind (.any _) fun s _ => ?_
    split
    · next found arity _ =>
      refine .bind (checkArity_gives _ _ _ _) fun _ harity => .pure fun n hn => ?_
      cases hn
      have := arity.toNat_lt
      simp only [if_true]
      omega
    · refine .bind (checkArity_gives _ _ _ _) fun _ harity => .pure fun n hn => ?_
      cases hn
      exact harity.symm
    · exact .bind (.any _) fun _ _ => .pure nofun
    · exact .pure nofun

theorem Instruction.isConstant_of_ofIntegerText? {text : String} {i : Instruction}
    (h : ofIntegerText? text = some i) : i.isConstant := by
  obtain ⟨v, -, hv⟩ := Option.bind_eq_some_iff.mp h
  unfold pushInteger? at hv
  split_ifs at hv <;> cases hv <;> rfl

theorem lowerLiteral_emits (t : Token) :
    Gives (lowerLiteral t) (Expr.Emits env scopes frame (.literal t)) := by
  unfold lowerLiteral
  split
  · cases h : Instruction.ofIntegerText? t.text with
    | none => exact .throw _
    | some i => exact .pure (.literal (Instruction.isConstant_of_ofIntegerText? h))
  · cases Binary32.read? t.text.toList with
    | none => exact .throw _
    | some x => exact .pure (.literal rfl)
  · exact .bind (.any _) fun _ _ => .pure (.literal rfl)
  · exact .pure (.literal rfl)
  · exact .pure (.literal rfl)
  · exact .pure (.literal rfl)
  · exact .throw _

theorem lowerVariable_emits
    (hread : ∀ t : Token, t.kind = .identifier →
      Gives (read t) (Expr.Emits env scopes frame (.variable t))) (t : Token) :
    Gives (lowerVariable env read t) (Expr.Emits env scopes frame (.variable t)) := by
  unfold lowerVariable
  split
  · next hk => exact .bind (ownerOf_gives _) fun _ howner => .pure (.this hk howner)
  · next hk => exact hread t hk
  · exact .throw _

theorem gives_emitsAll {es : List Expr} (h : Gives (lowerAll env read [] es) fun code =>
      ∃ more, Expr.EmitsAll env scopes frame es more ∧ code = [].reverse ++ more) :
    Gives (lowerAll env read [] es) (Expr.EmitsAll env scopes frame es) := by
  refine h.imp ?_
  rintro _ ⟨code, hcode, rfl⟩
  exact hcode

section

variable {left right : Expr} {arguments : List Expr}

theorem binary_emits (hleft : Gives (lowerExpr env read left) (Expr.Emits env scopes frame left))
    (hright : Gives (lowerExpr env read right) (Expr.Emits env scopes frame right)) (op : Token) :
    Gives (lowerExpr env read (.binary left op right))
      (Expr.Emits env scopes frame (.binary left op right)) := by
  simp only [lowerExpr]
  split
  · next hop =>
    split
    · next member =>
      split
      · next hk => exact .bind hleft fun _ h => .pure (.property hop hk h)
      · next hk =>
        split
        · next hthis =>
          refine .bind (ownerOf_gives _) fun _ howner => .bind (.any _) fun _ _ => .pure ?_
          exact .thisMember hop (fun p hp => hk p hp) hthis howner
        · next hthis =>
          refine .bind (.any _) fun _ _ => .bind hleft fun _ h => .pure ?_
          exact .member hop (fun p hp => hk p hp) (Bool.eq_false_iff.mpr hthis) h
    · exact .throw _
  · next hop =>
    exact .bind hleft fun _ ha => .bind hright fun _ hb => .pure (.dynamicMember hop ha hb)
  · next hop => exact .bind (.any _) fun _ _ => .bind (.any _) fun _ _ => .pure (.gameVariable hop)
  · next hop =>
    exact .bind (.any _) fun _ _ => .bind hright fun _ h => .pure (.dynamicGameVariable hop h)
  · next hop => exact .bind hleft fun _ ha => .bind hright fun _ hb => .pure (.binary hop ha hb)
  · exact .throw _

variable (hargs : Gives (lowerAll env read [] arguments) (Expr.EmitsAll env scopes frame arguments))
include hargs

theorem callFunction_emits (f : Token) (span : Span) :
    Gives (lowerExpr env read (.call (.variable f) arguments span))
      (Expr.Emits env scopes frame (.call (.variable f) arguments span)) := by
  simp only [lowerExpr]
  split
  · exact .throw_bind _
  next hlen =>
  split
  · exact .throw_bind _
  next hk =>
  split
  · exact .throw _
  · refine .bind (.any _) fun _ _ => .bind hargs fun _ h => .pure ?_
    exact .call (Nat.le_of_not_lt hlen) (Decidable.not_not.mp hk) h

/-- A call on the object itself, on an array, or on whatever else has methods. -/
theorem callMember_emits
    (hleft : Gives (lowerExpr env read left) (Expr.Emits env scopes frame left)) {op : Token}
    (hop : op.kind = .access .member) (member : Token) (span : Span) :
    Gives (lowerExpr env read (.call (.binary left op (.variable member)) arguments span))
      (Expr.Emits env scopes frame
        (.call (.binary left op (.variable member)) arguments span)) := by
  simp only [lowerExpr, hop]
  split
  · exact .throw_bind _
  next hlen =>
  have hlen : arguments.length ≤ 255 := Nat.le_of_not_lt hlen
  split
  · exact .throw_bind _
  split
  · next hthis =>
    refine .bind (ownerOf_gives _) fun layout howner => ?_
    split
    · exact .throw _
    · refine .bind (.any _) fun _ _ => .bind (.any _) fun _ _ => .bind hargs fun _ h => .pure ?_
      exact .callThisMethod hlen hop hthis howner h
  · next hthis =>
    have hthis : left.isThis = false := Bool.eq_false_iff.mpr hthis
    split
    · next ho =>
      refine .bind (checkArity_gives _ _ _ _) fun _ harity => .bind hleft fun _ ha =>
        .bind hargs fun _ hb => .pure ?_
      exact .callArray harity.symm hop hthis ho ha hb
    · next ho =>
      refine .bind (.any _) fun _ _ => .bind hleft fun _ ha => .bind hargs fun _ hb => .pure ?_
      exact .callMethod hlen hop hthis ho ha hb

theorem call_emits (hleft : Gives (lowerExpr env read left) (Expr.Emits env scopes frame left))
    (hright : Gives (lowerExpr env read right) (Expr.Emits env scopes frame right)) (op : Token)
    (span : Span) :
    Gives (lowerExpr env read (.call (.binary left op right) arguments span))
      (Expr.Emits env scopes frame (.call (.binary left op right) arguments span)) := by
  by_cases hmember : op.kind = .access .member ∧ ∃ member, right = .variable member
  · obtain ⟨hop, member, rfl⟩ := hmember
    exact callMember_emits hargs hleft hop member span
  simp only [lowerExpr]
  split
  · exact .throw_bind _
  next hlen =>
  have hlen : arguments.length ≤ 255 := Nat.le_of_not_lt hlen
  split
  · next hop =>
    split
    · next member => exact absurd ⟨hop, member, rfl⟩ hmember
    · exact .throw _
  · next hop =>
    exact .bind hleft fun _ ha => .bind hright fun _ hb => .bind hargs fun _ hc =>
      .pure (.callDynamicMethod hlen hop ha hb hc)
  · next hop =>
    exact .bind (.any _) fun _ _ => .bind (.any _) fun _ _ => .bind hargs fun _ h =>
      .pure (.callGame hlen hop h)
  · next hop =>
    exact .bind (.any _) fun _ _ => .bind hright fun _ ha => .bind hargs fun _ hb =>
      .pure (.callDynamicGame hlen hop ha hb)
  · exact .throw _

theorem construct_emits (type : Token) (span : Span) :
    Gives (lowerExpr env read (.construct type (some arguments) span))
      (Expr.Emits env scopes frame (.construct type (some arguments) span)) := by
  simp only [lowerExpr]
  refine .bind (planConstruct_gives _ _ _) fun r hr => ?_
  have hr := hr arguments.length rfl
  split
  · next hruns =>
    rw [if_pos hruns] at hr
    exact .bind hargs fun _ h => .pure (.construct hr h)
  · next hruns =>
    rw [if_neg hruns] at hr
    refine .pure (.create fun es hes => ?_)
    cases hes
    exact List.length_eq_zero_iff.mp hr

end

mutual

theorem lowerExpr_emits
    (hread : ∀ t : Token, t.kind = .identifier →
      Gives (read t) (Expr.Emits env scopes frame (.variable t))) :
    (e : Expr) → Gives (lowerExpr env read e) (Expr.Emits env scopes frame e)
  | .literal t => by
    simp only [lowerExpr]
    exact lowerLiteral_emits t
  | .variable t => by
    simp only [lowerExpr]
    exact lowerVariable_emits hread t
  | .grouping e => by
    simp only [lowerExpr]
    exact (lowerExpr_emits hread e).imp fun _ h => .grouping h
  | .unary op e leads => by
    simp only [lowerExpr]
    refine .bind (lowerExpr_emits hread e) fun code h => ?_
    split
    · next ho => exact .pure (.unary ho h)
    · exact .throw _
  | .binary left op right =>
    binary_emits (lowerExpr_emits hread left) (lowerExpr_emits hread right) op
  | .index array at_ span => by
    simp only [lowerExpr]
    exact .bind (lowerExpr_emits hread array) fun _ ha =>
      .bind (lowerExpr_emits hread at_) fun _ hb => .pure (.index ha hb)
  | .array elements span => by
    simp only [lowerExpr]
    split
    · exact .throw_bind _
    · next hlen =>
      exact .bind (gives_emitsAll (lowerAll_emits hread elements [])) fun _ h =>
        .pure (.array (Nat.le_of_not_lt hlen) h)
  | .call target arguments span => by
    have hargs := gives_emitsAll (lowerAll_emits hread arguments [])
    cases target with
    | «variable» f => exact callFunction_emits hargs f span
    | binary left op right =>
      exact call_emits hargs (lowerExpr_emits hread left) (lowerExpr_emits hread right) op span
    | _ =>
      simp only [lowerExpr]
      split
      · exact .throw_bind _
      · exact .throw _
  | .construct type none span => by
    simp only [lowerExpr]
    exact .bind (.any _) fun _ _ => .pure (.create nofun)
  | .construct type (some arguments) span => by
    exact construct_emits (gives_emitsAll (lowerAll_emits hread arguments [])) type span
  | .pending type => by
    simp only [lowerExpr]
    exact .throw _
termination_by e => sizeOf e
decreasing_by all_goals (subst_vars; simp +arith)

theorem lowerAll_emits
    (hread : ∀ t : Token, t.kind = .identifier →
      Gives (read t) (Expr.Emits env scopes frame (.variable t))) :
    (es : List Expr) → (acc : Code) →
      Gives (lowerAll env read acc es) fun code =>
        ∃ more, Expr.EmitsAll env scopes frame es more ∧ code = acc.reverse ++ more
  | [], acc => by
    simp only [lowerAll]
    exact .pure ⟨[], .nil, (List.append_nil _).symm⟩
  | e :: es, acc => by
    simp only [lowerAll]
    refine .bind (lowerExpr_emits hread e) fun code hcode => ?_
    refine (lowerAll_emits hread es (code.reverse ++ acc)).imp ?_
    rintro _ ⟨more, hmore, rfl⟩
    exact ⟨code ++ more, .cons hcode hmore, by simp⟩
termination_by es => sizeOf es
decreasing_by all_goals simp +arith

end

theorem readGlobal_gives (t : Token) :
    Gives (readGlobal env t) fun s => ∃ k, env.globals.find? t.text = some k ∧ s = .ofGlobal k := by
  unfold readGlobal
  split
  · next k hk => exact .pure ⟨k, hk, rfl⟩
  · exact .throw _

theorem readFrom_emits (frame : Nat) (t : Token) (ht : t.kind = .identifier) :
    Gives (readFrom env scopes frame t) (Expr.Emits env scopes (some frame) (.variable t)) := by
  -- the frame goes down with every loop that is left
  induction frame using Nat.strongRecOn generalizing t with
  | ind frame ih =>
    unfold readFrom
    split
    · next hnone =>
      refine .bind (readGlobal_gives t) ?_
      rintro _ ⟨k, hk, rfl⟩
      exact .pure (.global ht hnone hk)
    · next hslot => exact .pure (.slot ht hslot)
    · next outer helement =>
      split
      · next hlt =>
        exact .bind (lowerExpr_emits (ih outer hlt) _) fun _ h =>
          .pure (.element ht helement hlt h)
      · exact .throw _

theorem lower_emits (scopes : Scopes) (e : Expr) :
    Gives (lower env scopes e) (Expr.Emits env scopes scopes.current e) := by
  refine lowerExpr_emits (fun t ht => ?_) e
  unfold readName
  split
  · next frame hframe =>
    rw [hframe]
    exact readFrom_emits frame t ht
  · next hframe =>
    rw [hframe]
    refine .bind (readGlobal_gives t) ?_
    rintro _ ⟨k, hk, rfl⟩
    exact .pure (.global ht rfl hk)

end

end Lss
