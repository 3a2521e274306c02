import Lss.Proofs.Kept

/-!
# What holds of every step of lowering

Lowering is composed of a few steps that touch a pool. Computations over a tree and over the same
tree in other places are related when these steps are, as long as the relation lasts where they
follow one another. So are computations over one tree; and a property of the steps that composition
keeps is one of all of lowering.
-/
namespace Lss

open Lower

/-! Trees that stand elsewhere. -/

/-- Other places for what is in a text; what covers two places moves with them. -/
structure Relocation where
  span : Span → Span
  cover : ∀ a b, span (a + b) = span a + span b

def Relocation.refl : Relocation := ⟨id, fun _ _ => rfl⟩

section

variable (μ : Relocation)

def Token.moved (t : Token) : Token := { t with span := μ.span t.span }

namespace Expr

mutual

def moved : Expr → Expr
  | .literal t => .literal (t.moved μ)
  | .variable t => .variable (t.moved μ)
  | .grouping e => .grouping e.moved
  | .unary op e leads => .unary (op.moved μ) e.moved leads
  | .binary l op r => .binary l.moved (op.moved μ) r.moved
  | .index a i s => .index a.moved i.moved (μ.span s)
  | .array es s => .array (movedAll es) (μ.span s)
  | .call f es s => .call f.moved (movedAll es) (μ.span s)
  | .construct type none s => .construct (type.moved μ) none (μ.span s)
  | .construct type (some es) s => .construct (type.moved μ) (some (movedAll es)) (μ.span s)
  | .pending type => .pending (type.moved μ)
termination_by structural e => e

def movedAll : List Expr → List Expr
  | [] => []
  | e :: es => e.moved :: movedAll es
termination_by structural es => es

end

end Expr

def CompileError.moved : CompileError → CompileError
  | .undefinedVariable name s => .undefinedVariable name (μ.span s)
  | .undefinedFunction name s => .undefinedFunction name (μ.span s)
  | .undefinedClass name s => .undefinedClass name (μ.span s)
  | .duplicateVariable name s => .duplicateVariable name (μ.span s)
  | .duplicateFunction name s => .duplicateFunction name (μ.span s)
  | .duplicateClass name s => .duplicateClass name (μ.span s)
  | .wrongArgumentCount name expected found s => .wrongArgumentCount name expected found (μ.span s)
  | .literalOutOfRange text s => .literalOutOfRange text (μ.span s)
  | .notAssignable s => .notAssignable (μ.span s)
  | .invalidThis s => .invalidThis (μ.span s)
  | .invalidCallTarget s => .invalidCallTarget (μ.span s)
  | .invalidNamespace s => .invalidNamespace (μ.span s)
  | .inheritanceCycle name s => .inheritanceCycle name (μ.span s)
  | .tooManyLocals name s => .tooManyLocals name (μ.span s)
  | .tooManyArguments s => .tooManyArguments (μ.span s)
  | .branchTooFar s => .branchTooFar (μ.span s)
  | .unreadable path fault => .unreadable path fault
  | .format error => .format error
  | .internal what => .internal what

@[simp] theorem Token.kind_moved (t : Token) : (t.moved μ).kind = t.kind := rfl

@[simp] theorem Token.text_moved (t : Token) : (t.moved μ).text = t.text := rfl

@[simp] theorem Token.span_moved (t : Token) : (t.moved μ).span = μ.span t.span := rfl

@[simp] theorem Token.stringValue_moved (t : Token) : (t.moved μ).stringValue = t.stringValue := rfl

namespace Expr

@[simp] theorem isThis_moved (e : Expr) : (e.moved μ).isThis = e.isThis := by
  cases e with
  | construct type arguments _ => cases arguments <;> rfl
  | _ => rfl

@[simp] theorem name?_moved (e : Expr) : (e.moved μ).name? = e.name? := by
  cases e with
  | construct type arguments _ => cases arguments <;> rfl
  | _ => rfl

@[simp] theorem length_movedAll (es : List Expr) : (movedAll μ es).length = es.length := by
  induction es with
  | nil => rfl
  | cons e es ih => rw [movedAll, List.length_cons, List.length_cons, ih]

@[simp] theorem span_moved (e : Expr) : (e.moved μ).span = μ.span e.span := by
  match e with
  | .literal _ | .variable _ | .pending _ | .index _ _ _ | .array _ _ | .call _ _ _
  | .construct _ none _ | .construct _ (some _) _ => rfl
  | .grouping e => exact span_moved e
  | .unary op e _ => rw [moved, span, span, span_moved e, μ.cover, Token.span_moved]
  | .binary l op r =>
    rw [moved, span, span, span_moved l, span_moved r, μ.cover, μ.cover, Token.span_moved]

mutual

theorem moved_refl : (e : Expr) → e.moved .refl = e
  | .literal _ | .variable _ | .pending _ | .construct _ none _ => rfl
  | .grouping e => by rw [moved, moved_refl e]
  | .unary op e _ => by
    rw [moved, moved_refl e]
    rfl
  | .binary l op r => by
    rw [moved, moved_refl l, moved_refl r]
    rfl
  | .index a i _ => by
    rw [moved, moved_refl a, moved_refl i]
    rfl
  | .array es _ => by
    rw [moved, movedAll_refl es]
    rfl
  | .call f es _ => by
    rw [moved, moved_refl f, movedAll_refl es]
    rfl
  | .construct _ (some es) _ => by
    rw [moved, movedAll_refl es]
    rfl

theorem movedAll_refl : (es : List Expr) → movedAll .refl es = es
  | [] => rfl
  | e :: es => by rw [movedAll, moved_refl e, movedAll_refl es]

end

end Expr

theorem CompileError.moved_refl (e : CompileError) : e.moved .refl = e := by cases e <;> rfl

end

/-! The steps of an expression. -/

/-- Only declarations find that a name is taken. -/
def CompileError.Neutral : CompileError → Prop
  | .duplicateVariable _ _ => False
  | _ => True

/-- What is complained of about a tree in one place and in another. -/
inductive CompileError.Moves (μ : Relocation) : CompileError → CompileError → Prop
  | placed {e : CompileError} : e.Neutral → Moves μ e (e.moved μ)
  | malformed (s : Span) : Moves μ (.internal ("malformed member name at " ++ s.text))
      (.internal ("malformed member name at " ++ (μ.span s).text))

/-- A relation that the steps of lowering have to themselves in other places, and that lasts when
they follow one another. -/
structure Lower.Steps (μ : Relocation) (S : {α : Type} → Lower α → Lower α → Prop) : Prop where
  pure {α : Type} (a : α) : S (pure a) (pure a)
  throw {α : Type} {e e' : CompileError} : e.Moves μ e' →
    S (MonadExcept.throw e : Lower α) (MonadExcept.throw e')
  bind {α β : Type} {f f' : Lower α} {g g' : α → Lower β} : S f f' → (∀ a, S (g a) (g' a)) →
    S (f >>= g) (f' >>= g')
  symbol (name : String) : S (symbol name) (symbol name)
  string (value : String) : S (string value) (string value)
  warn (type : Token) (span : Span) : S (warn (constructorNotCalled type span))
    (warn (constructorNotCalled (type.moved μ) (μ.span span)))

section

variable {μ : Relocation} {S : {α : Type} → Lower α → Lower α → Prop} {env : Env}
  (h : Lower.Steps μ S)
include h

theorem namespaceSymbol_moved (e : Expr) : S (namespaceSymbol e) (namespaceSymbol (e.moved μ)) := by
  simp only [namespaceSymbol, Expr.name?_moved, Expr.span_moved]
  split
  · exact h.symbol _
  · exact h.throw (.placed trivial)

theorem memberSymbol_moved (e : Expr) : S (memberSymbol e) (memberSymbol (e.moved μ)) := by
  simp only [memberSymbol, Expr.name?_moved, Expr.span_moved]
  split
  · exact h.symbol _
  · exact h.throw (.malformed _)

theorem checkArity_moved (name : String) (expected found : Nat) (span : Span) :
    S (checkArity name expected found span) (checkArity name expected found (μ.span span)) := by
  unfold checkArity
  split
  · exact h.pure ()
  · exact h.throw (.placed trivial)

theorem ownerOf_moved (this : Expr) : S (env.ownerOf this) (env.ownerOf (this.moved μ)) := by
  simp only [Env.ownerOf, Expr.span_moved]
  split
  · exact h.pure _
  · exact h.throw (.placed trivial)

theorem planConstruct_moved (type : Token) (arguments : Option Nat) (span : Span) :
    S (planConstruct env type arguments span)
      (planConstruct env (type.moved μ) arguments (μ.span span)) := by
  simp only [planConstruct, Token.text_moved, Token.span_moved]
  split
  · exact h.throw (.placed trivial)
  · refine h.bind (h.symbol _) fun s => ?_
    split
    · exact h.bind (checkArity_moved h _ _ _ _) fun _ => h.pure _
    · exact h.bind (checkArity_moved h _ _ _ _) fun _ => h.pure _
    · exact h.bind (h.warn _ _) fun _ => h.pure _
    · exact h.pure _

theorem lowerLiteral_moved (t : Token) : S (lowerLiteral t) (lowerLiteral (t.moved μ)) := by
  simp only [lowerLiteral, Token.kind_moved, Token.text_moved, Token.span_moved,
    Token.stringValue_moved]
  split
  · cases Instruction.ofIntegerText? t.text with
    | none => exact h.throw (.placed trivial)
    | some i => exact h.pure _
  · cases Binary32.read? t.text.toList with
    | none => exact h.throw (.placed trivial)
    | some x => exact h.pure _
  · exact h.bind (h.string _) fun _ => h.pure _
  · exact h.pure _
  · exact h.pure _
  · exact h.pure _
  · exact h.throw (.placed trivial)

theorem readGlobal_moved (t : Token) : S (readGlobal env t) (readGlobal env (t.moved μ)) := by
  simp only [readGlobal, Token.text_moved, Token.span_moved]
  split
  · exact h.pure _
  · exact h.throw (.placed trivial)

end

/-! Expressions. -/

section

variable {m n : Type → Type} [Monad m] [MonadLiftT Lower m] [MonadExcept CompileError m]
  [Monad n] [MonadLiftT Lower n] [MonadExcept CompileError n]

/-- A relation between computations that steps of lowering are in, and that lasts when they follow
one another. -/
structure Lower.Walks (μ : Relocation) (S : {α : Type} → Lower α → Lower α → Prop)
    (Q : {α : Type} → m α → n α → Prop) : Prop where
  steps : Steps μ S
  pure {α : Type} (a : α) : Q (pure a) (pure a)
  lift {α : Type} {f f' : Lower α} : S f f' → Q (liftM f) (liftM f')
  throw {α : Type} {e e' : CompileError} : e.Moves μ e' →
    Q (MonadExcept.throw e : m α) (MonadExcept.throw e')
  throw_bind {α β : Type} {e e' : CompileError} {y : α → m β} {y' : α → n β} : e.Moves μ e' →
    Q (MonadExcept.throw e >>= y) (MonadExcept.throw e' >>= y')
  bind {α β : Type} {x : m α} {x' : n α} {y : α → m β} {y' : α → n β} : Q x x' →
    (∀ a, Q (y a) (y' a)) → Q (x >>= y) (x' >>= y')

variable {μ : Relocation} {S : {α : Type} → Lower α → Lower α → Prop}
  {Q : {α : Type} → m α → n α → Prop} (h : Walks (m := m) (n := n) μ S Q)
  {env : Env} {r : Token → m Code} {s : Token → n Code}
include h

theorem binary_moved {left right : Expr}
    (hleft : Q (exprOver env r left) (exprOver env s (left.moved μ)))
    (hright : Q (exprOver env r right) (exprOver env s (right.moved μ))) (op : Token) :
    Q (exprOver env r (.binary left op right))
      (exprOver env s ((Expr.binary left op right).moved μ)) := by
  have hspace := h.lift (namespaceSymbol_moved h.steps left)
  have hname := h.lift (memberSymbol_moved h.steps right)
  simp only [exprOver, Expr.moved, Token.kind_moved, Expr.isThis_moved]
  split
  · cases right with
    | «variable» member =>
      simp only [Expr.moved, Token.kind_moved]
      split
      · exact h.bind hleft fun _ => h.pure _
      · split
        · exact h.bind (h.lift (ownerOf_moved h.steps left)) fun _ => h.bind hname fun _ => h.pure _
        · exact h.bind hname fun _ => h.bind hleft fun _ => h.pure _
    | construct type arguments _ => cases arguments <;> exact h.throw (.placed trivial)
    | _ => exact h.throw (.placed trivial)
  · exact h.bind hleft fun _ => h.bind hright fun _ => h.pure _
  · exact h.bind hspace fun _ => h.bind hname fun _ => h.pure _
  · exact h.bind hspace fun _ => h.bind hright fun _ => h.pure _
  · exact h.bind hleft fun _ => h.bind hright fun _ => h.pure _
  · exact h.throw (.placed trivial)

section

variable {arguments : List Expr}
  (hargs : Q (allOver env r [] arguments) (allOver env s [] (Expr.movedAll μ arguments)))
include hargs

theorem callFunction_moved (f : Token) (span : Span) :
    Q (exprOver env r (.call (.variable f) arguments span))
      (exprOver env s ((Expr.call (.variable f) arguments span).moved μ)) := by
  simp only [exprOver, Expr.moved, Expr.length_movedAll, Token.kind_moved, Token.text_moved,
    Token.span_moved]
  split
  · exact h.throw_bind (.placed trivial)
  · split
    · exact h.throw_bind (.placed trivial)
    · split
      · exact h.throw (.placed trivial)
      · exact h.bind (h.lift (checkArity_moved h.steps _ _ _ _)) fun _ =>
          h.bind hargs fun _ => h.pure _

theorem callMember_moved {left : Expr}
    (hleft : Q (exprOver env r left) (exprOver env s (left.moved μ))) {op : Token}
    (hop : op.kind = .access .member) (member : Token) (span : Span) :
    Q (exprOver env r (.call (.binary left op (.variable member)) arguments span))
      (exprOver env s
        ((Expr.call (.binary left op (.variable member)) arguments span).moved μ)) := by
  have hspan := Expr.span_moved μ (.binary left op (.variable member))
  simp only [Expr.moved] at hspan
  simp only [exprOver, Expr.moved, Expr.length_movedAll, Token.kind_moved, Token.text_moved,
    Token.span_moved, Expr.isThis_moved, hop, hspan]
  split
  · exact h.throw_bind (.placed trivial)
  split
  · exact h.throw_bind (.placed trivial)
  split
  · refine h.bind (h.lift (ownerOf_moved h.steps left)) fun layout => ?_
    split
    · exact h.throw (.placed trivial)
    · exact h.bind (h.lift (checkArity_moved h.steps _ _ _ _)) fun _ =>
        h.bind (h.lift (h.steps.symbol _)) fun _ => h.bind hargs fun _ => h.pure _
  · split
    · exact h.bind (h.lift (checkArity_moved h.steps _ _ _ _)) fun _ =>
        h.bind hleft fun _ => h.bind hargs fun _ => h.pure _
    · exact h.bind (h.lift (h.steps.symbol _)) fun _ => h.bind hleft fun _ =>
        h.bind hargs fun _ => h.pure _

theorem call_moved {left right : Expr}
    (hleft : Q (exprOver env r left) (exprOver env s (left.moved μ)))
    (hright : Q (exprOver env r right) (exprOver env s (right.moved μ))) (op : Token)
    (span : Span) :
    Q (exprOver env r (.call (.binary left op right) arguments span))
      (exprOver env s ((Expr.call (.binary left op right) arguments span).moved μ)) := by
  have hspace := h.lift (namespaceSymbol_moved h.steps left)
  have hspan := Expr.span_moved μ (.binary left op right)
  cases hop : op.kind with
  | access a =>
    cases a with
    | member =>
      cases right with
      | «variable» member => exact callMember_moved h hargs hleft hop member span
      | construct type arguments _ =>
        cases arguments
        all_goals
          simp only [Expr.moved] at hspan
          simp only [exprOver, Expr.moved, Expr.length_movedAll, Token.kind_moved, hop, hspan]
          split
          · exact h.throw_bind (.placed trivial)
          · exact h.throw (.placed trivial)
      | _ =>
        simp only [Expr.moved] at hspan
        simp only [exprOver, Expr.moved, Expr.length_movedAll, Token.kind_moved, hop, hspan]
        split
        · exact h.throw_bind (.placed trivial)
        · exact h.throw (.placed trivial)
    | dynamicMember =>
      simp only [exprOver, Expr.moved, Expr.length_movedAll, Token.kind_moved, hop]
      split
      · exact h.throw_bind (.placed trivial)
      · exact h.bind hleft fun _ => h.bind hright fun _ => h.bind hargs fun _ => h.pure _
    | scope =>
      simp only [exprOver, Expr.moved, Expr.length_movedAll, Token.kind_moved, hop]
      split
      · exact h.throw_bind (.placed trivial)
      · exact h.bind hspace fun _ => h.bind (h.lift (memberSymbol_moved h.steps right)) fun _ =>
          h.bind hargs fun _ => h.pure _
    | dynamicScope =>
      simp only [exprOver, Expr.moved, Expr.length_movedAll, Token.kind_moved, hop]
      split
      · exact h.throw_bind (.placed trivial)
      · exact h.bind hspace fun _ => h.bind hright fun _ => h.bind hargs fun _ => h.pure _
  | _ =>
    simp only [Expr.moved] at hspan
    simp only [exprOver, Expr.moved, Expr.length_movedAll, Token.kind_moved, hop, hspan]
    split
    · exact h.throw_bind (.placed trivial)
    · exact h.throw (.placed trivial)

end

mutual

/-- What the steps of lowering are in holds of every expression. -/
theorem exprOver_moved (hread : ∀ t, Q (r t) (s (t.moved μ))) : (e : Expr) →
    Q (exprOver env r e) (exprOver env s (e.moved μ))
  | .literal t => by
    simp only [exprOver, Expr.moved]
    exact h.lift (lowerLiteral_moved h.steps t)
  | .variable t => by
    simp only [exprOver, Expr.moved, Token.kind_moved]
    split
    · exact h.bind (h.lift (ownerOf_moved h.steps (.variable t))) fun _ => h.pure _
    · exact hread t
    · exact h.throw (.placed trivial)
  | .grouping e => by
    simp only [exprOver, Expr.moved]
    exact exprOver_moved hread e
  | .unary op e _ => by
    simp only [exprOver, Expr.moved, Token.kind_moved]
    refine h.bind (exprOver_moved hread e) fun code => ?_
    split
    · exact h.pure _
    · exact h.throw (.placed trivial)
  | .binary left op right =>
    binary_moved h (exprOver_moved hread left) (exprOver_moved hread right) op
  | .index array at_ _ => by
    simp only [exprOver, Expr.moved]
    exact h.bind (exprOver_moved hread array) fun _ =>
      h.bind (exprOver_moved hread at_) fun _ => h.pure _
  | .array elements span => by
    have hall := allOver_moved hread elements []
    simp only [exprOver, Expr.moved, Expr.length_movedAll]
    split
    · exact h.throw_bind (.placed trivial)
    · exact h.bind hall fun _ => h.pure _
  | .call target arguments span => by
    have hargs := allOver_moved hread arguments []
    have hspan := Expr.span_moved μ target
    cases target with
    | «variable» f => exact callFunction_moved h hargs f span
    | binary left op right =>
      exact call_moved h hargs (exprOver_moved hread left) (exprOver_moved hread right) op span
    | construct type arguments _ =>
      cases arguments
      all_goals
        simp only [Expr.moved] at hspan
        simp only [exprOver, Expr.moved, Expr.length_movedAll, hspan]
        split
        · exact h.throw_bind (.placed trivial)
        · exact h.throw (.placed trivial)
    | _ =>
      simp only [Expr.moved] at hspan
      simp only [exprOver, Expr.moved, Expr.length_movedAll, hspan]
      split
      · exact h.throw_bind (.placed trivial)
      · exact h.throw (.placed trivial)
  | .construct type none span => by
    simp only [exprOver, Expr.moved]
    exact h.bind (h.lift (planConstruct_moved h.steps _ _ _)) fun _ => h.pure _
  | .construct type (some arguments) span => by
    have hargs := allOver_moved hread arguments []
    simp only [exprOver, Expr.moved, Expr.length_movedAll]
    refine h.bind (h.lift (planConstruct_moved h.steps _ _ _)) fun p => ?_
    split
    · exact h.bind hargs fun _ => h.pure _
    · exact h.pure _
  | .pending type => by
    simp only [exprOver, Expr.moved]
    exact h.throw (.placed trivial)
termination_by e => sizeOf e
decreasing_by all_goals (subst_vars; simp +arith)

theorem allOver_moved (hread : ∀ t, Q (r t) (s (t.moved μ))) : (es : List Expr) → (acc : Code) →
    Q (allOver env r acc es) (allOver env s acc (Expr.movedAll μ es))
  | [], acc => by
    simp only [allOver, Expr.movedAll]
    exact h.pure _
  | e :: es, acc => by
    simp only [allOver, Expr.movedAll]
    exact h.bind (exprOver_moved hread e) fun _ => allOver_moved hread es _
termination_by es => sizeOf es
decreasing_by all_goals simp +arith

end

variable {a : Token → m Slot} {b : Token → n Slot}

theorem assignOver_moved (hread : ∀ t, Q (r t) (s (t.moved μ)))
    (hassigned : ∀ t, Q (a t) (b (t.moved μ))) (target value : Expr) :
    Q (assignOver env r a target value)
      (assignOver env s b (target.moved μ) (value.moved μ)) := by
  have hexpr (e : Expr) : Q (exprOver env r e) (exprOver env s (e.moved μ)) :=
    exprOver_moved h hread e
  have hspan := Expr.span_moved μ target
  unfold assignOver
  cases target with
  | «variable» t =>
    by_cases hk : t.kind = .identifier
    · simp only [Expr.moved, Token.kind_moved, hk, ne_eq, not_true_eq_false, if_false]
      exact h.bind (hassigned t) fun _ => h.bind (hexpr value) fun _ => h.pure _
    · simp only [Expr.moved, Token.kind_moved, hk, ne_eq, not_false_eq_true, if_true]
      exact h.throw_bind (.placed trivial)
  | binary left op right =>
    simp only [Expr.moved] at hspan
    simp only [Expr.moved, Token.kind_moved, Expr.isThis_moved, Expr.name?_moved, hspan]
    split
    · split
      · exact h.throw (.placed trivial)
      · refine h.bind (h.lift (h.steps.symbol _)) fun _ => ?_
        split
        · exact h.bind (h.lift (ownerOf_moved h.steps left)) fun _ =>
            h.bind (hexpr value) fun _ => h.pure _
        · exact h.bind (hexpr left) fun _ => h.bind (hexpr value) fun _ => h.pure _
    · exact h.bind (hexpr left) fun _ => h.bind (hexpr right) fun _ =>
        h.bind (hexpr value) fun _ => h.pure _
    · exact h.bind (h.lift (namespaceSymbol_moved h.steps left)) fun _ =>
        h.bind (h.lift (memberSymbol_moved h.steps right)) fun _ => h.bind (hexpr value) fun _ =>
          h.pure _
    · exact h.throw (.placed trivial)
  | index array at_ _ =>
    exact h.bind (hexpr array) fun _ => h.bind (hexpr at_) fun _ =>
      h.bind (hexpr value) fun _ => h.pure _
  | construct type arguments _ =>
    cases arguments
    all_goals exact h.throw (.placed trivial)
  | _ =>
    simp only [Expr.moved] at hspan
    simp only [Expr.moved, hspan]
    exact h.throw (.placed trivial)

end

/-! What holds of every step. -/

namespace Lower

/-- A property of the steps that lowering is composed of, which lasts when they follow one
another. -/
structure Composes (P : {α : Type} → Lower α → Prop) : Prop where
  pure : ∀ {α : Type} (a : α), P (pure a : Lower α)
  throw : ∀ {α : Type} (e : CompileError), P (throw e : Lower α)
  bind : ∀ {α β : Type} {f : Lower α} {g : α → Lower β}, P f → (∀ a, P (g a)) → P (f >>= g)
  symbol : ∀ name, P (symbol name)
  string : ∀ value, P (string value)
  warn : ∀ type span, P (warn (constructorNotCalled type span))

variable {P : {α : Type} → Lower α → Prop} {α β : Type}

theorem Composes.throw_bind (h : Composes P) (e : CompileError) {g : α → Lower β} :
    P (MonadExcept.throw e >>= g) := h.throw e

theorem Composes.map (h : Composes P) {f : Lower α} {g : α → β} (hf : P f) : P (g <$> f) := by
  rw [map_eq_pure_bind]
  exact h.bind hf fun a => h.pure (g a)

theorem Composes.ofExcept (h : Composes P) (r : Except CompileError α) : P (ofExcept r) := by
  cases r with
  | ok a => exact h.pure a
  | error e => exact h.throw e

/-- A property is a relation of each step to itself. -/
theorem Composes.walks (h : Composes P) :
    Walks (m := Lower) (n := Lower) .refl (fun f _ => P f) fun f _ => P f where
  steps := ⟨h.pure, fun _ => h.throw _, h.bind, h.symbol, h.string, h.warn⟩
  pure := h.pure
  lift hf := hf
  throw _ := h.throw _
  throw_bind _ := h.throw_bind _
  bind := h.bind

end Lower

/-! Properties of expressions. -/

section

variable {P : {α : Type} → Lower α → Prop} {env : Env} {read : Token → Lower Code} (h : Composes P)
include h

theorem memberSymbol_composed (e : Expr) : P (memberSymbol e) :=
  memberSymbol_moved h.walks.steps e

theorem checkArity_composed (name : String) (expected found : Nat) (span : Span) :
    P (checkArity name expected found span) :=
  checkArity_moved h.walks.steps name expected found span

theorem ownerOf_composed (this : Expr) : P (env.ownerOf this) :=
  ownerOf_moved h.walks.steps this

theorem readGlobal_composed (t : Token) : P (readGlobal env t) :=
  readGlobal_moved h.walks.steps t

theorem lowerExpr_composed (hread : ∀ t, P (read t)) (e : Expr) : P (lowerExpr env read e) := by
  rw [← exprOver_lower]
  exact exprOver_moved h.walks (s := read) hread e

theorem lowerAll_composed (hread : ∀ t, P (read t)) (es : List Expr) (acc : Code) :
    P (lowerAll env read acc es) := by
  rw [← allOver_lower]
  exact allOver_moved h.walks (s := read) hread es acc

end

/-! Statements and bodies. -/

section

variable {P : {α : Type} → Lower α → Prop} {env : Env} (h : Composes P)
include h

theorem readFrom_composed (scopes : Scopes) (frame : Nat) (t : Token) :
    P (readFrom env scopes frame t) := by
  induction frame using Nat.strongRecOn generalizing t with
  | ind frame ih =>
    unfold readFrom
    split
    · exact h.bind (readGlobal_composed h t) fun _ => h.pure _
    · exact h.pure _
    · next outer _ =>
      split
      · next hlt => exact h.bind (lowerExpr_composed h (ih outer hlt) _) fun _ => h.pure _
      · exact h.throw _

theorem readName_composed (scopes : Scopes) (t : Token) : P (readName env scopes t) := by
  unfold readName
  split
  · exact readFrom_composed h scopes _ t
  · exact h.bind (readGlobal_composed h t) fun _ => h.pure _

theorem lower_composed (scopes : Scopes) (e : Expr) : P (lower env scopes e) :=
  lowerExpr_composed h (readName_composed h scopes) e

theorem assignedSlot_composed (scopes : Scopes) (t : Token) :
    P (assignedSlot env scopes t) := by
  unfold assignedSlot
  split
  · exact h.pure _
  · exact h.throw _
  · exact readGlobal_composed h t

theorem lowerAssign_composed (scopes : Scopes) (target value : Expr) :
    P (lowerAssign env scopes target value) := by
  rw [← assignOver_lower]
  exact assignOver_moved h.walks (s := readName env scopes) (b := assignedSlot env scopes)
    (readName_composed h scopes) (assignedSlot_composed h scopes) target value

theorem lowerVar_composed (scopes : Scopes) (name : Token) (init : Option Expr) :
    P (lowerVar env scopes name init) := by
  unfold lowerVar
  cases init with
  | none =>
    dsimp only
    split
    · exact h.pure _
    · exact h.throw _
  | some e =>
    refine h.bind (lower_composed h scopes e) fun _ => ?_
    split
    · exact h.pure _
    · exact h.throw _

mutual

theorem lowerStmt_composed : (s : Stmt) → (scopes : Scopes) → P (lowerStmt env scopes s)
  | .block ⟨body, _⟩, scopes => by
    simp only [lowerStmt]
    exact h.bind (lowerStmts_composed body [] _) fun _ => h.pure _
  | .expr e, scopes => by
    simp only [lowerStmt]
    exact h.bind (lower_composed h scopes e) fun _ => h.pure _
  | .var name init, scopes => by
    simp only [lowerStmt]
    exact lowerVar_composed h scopes name init
  | .assign target value, scopes => by
    simp only [lowerStmt]
    exact h.bind (lowerAssign_composed h scopes target value) fun _ => h.pure _
  | .return_ none _, scopes => by
    simp only [lowerStmt]
    exact h.pure _
  | .return_ (some e) _, scopes => by
    simp only [lowerStmt]
    exact h.bind (lower_composed h scopes e) fun _ => h.pure _
  | .if_ none body _ _, scopes => by
    simp only [lowerStmt]
    exact h.map (lowerStmt_composed body scopes)
  | .if_ (some c) body none span, scopes => by
    simp only [lowerStmt]
    exact h.bind (lower_composed h scopes c) fun _ =>
      h.bind (h.map (lowerStmt_composed body scopes)) fun _ =>
        h.bind (h.ofExcept _) fun _ => h.pure _
  | .if_ (some c) body (some arm) span, scopes => by
    simp only [lowerStmt]
    exact h.bind (lower_composed h scopes c) fun _ =>
      h.bind (h.map (lowerStmt_composed body scopes)) fun _ => h.bind (h.ofExcept _) fun _ =>
        h.bind (h.map (lowerStmt_composed arm _)) fun _ => h.bind (h.ofExcept _) fun _ => h.pure _
  | .while_ c body, scopes => by
    simp only [lowerStmt]
    exact h.bind (lower_composed h scopes c) fun _ =>
      h.bind (h.map (lowerStmt_composed body scopes)) fun _ =>
        h.bind (h.ofExcept _) fun _ => h.pure _
  | .doWhile body c, scopes => by
    simp only [lowerStmt]
    exact h.bind (h.map (lowerStmt_composed body scopes)) fun _ =>
      h.bind (lower_composed h _ c) fun _ => h.bind (h.ofExcept _) fun _ => h.pure _
  | .foreach element collection body, scopes => by
    simp only [lowerStmt]
    refine h.bind (lower_composed h _ collection) fun _ => ?_
    split
    · exact h.throw _
    · split
      · exact h.throw _
      · exact h.bind (h.map (lowerStmt_composed body _)) fun _ =>
          h.bind (h.ofExcept _) fun _ => h.pure _
  | .classDecl _, _ | .property _, _ | .subroutine _, _ | .global _, _ => by
    simp only [lowerStmt]
    exact h.throw _

theorem lowerStmts_composed : (ss : List Stmt) → (acc : Code) → (scopes : Scopes) →
    P (lowerStmts env acc scopes ss)
  | [], acc, scopes => by
    simp only [lowerStmts]
    exact h.pure _
  | s :: ss, acc, scopes => by
    simp only [lowerStmts]
    exact h.bind (h.map (lowerStmt_composed s scopes)) fun _ => lowerStmts_composed ss _ _

end

/-- A body changes tables only by what it interns. -/
theorem lowerSubroutine_composed (s : Subroutine) : P (lowerSubroutine env s) := by
  unfold lowerSubroutine
  exact h.bind (h.ofExcept _) fun _ => h.bind (lowerStmts_composed h _ [] _) fun _ => h.ofExcept _

end

end Lss
