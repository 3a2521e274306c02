import Mathlib.Data.List.Forall2
import Mathlib.Tactic.SplitIfs
import Lss.Proofs.Composed
import Lss.Proofs.Drawn
import Lss.Proofs.Kept
import Lss.Proofs.Shape

/-!
# Two runs of lowering side by side

Lowering an expression treats the numbers that names are interned under as they come. So a relation
between runs that its few steps keep, and one between codes that is kept where operands are joined
and instructions appended, hold of the runs of every expression and of their codes.
-/
namespace Lss

/-! What two environments have in common. -/

structure ClassLayout.Alike (l m : ClassLayout) : Prop where
  name : l.name = m.name
  methods : ∀ method, l.arity? method = m.arity? method

theorem ClassLayout.Alike.refl (l : ClassLayout) : l.Alike l := ⟨rfl, fun _ => rfl⟩

theorem ClassLayout.Alike.constructorArity? {l m : ClassLayout} (h : l.Alike m) :
    l.constructorArity? = m.constructorArity? := by
  rw [ClassLayout.constructorArity?, ClassLayout.constructorArity?, h.name, h.methods]

namespace Instruction

/-- Operators that name neither a variable nor a place in the table of functions. -/
def isNameless : Instruction → Bool
  | .getVariable _ | .callFunction _ _ => false
  | i => i.isOperator

theorem isOperator_of_isNameless {i : Instruction} (h : i.isNameless) : i.isOperator := by
  cases i <;> first | exact h | cases h

end Instruction

namespace Lower

theorem composes_trivial : Composes fun _ => True where
  pure _ := trivial
  throw _ := trivial
  bind _ _ := trivial
  symbol _ := trivial
  string _ := trivial
  warn _ _ := trivial

/-- How two runs are compared: in worlds that may have grown from one step to the next. In `bind`
what comes after the first step is `Calm` whatever that step gives, since it is run from there in
any case. -/
structure Comparison where
  World : Type
  Later : World → World → Prop
  Rel {α β : Type} : World → Lower α → Lower β → (World → α → β → Prop) → Prop
  Calm {α : Type} : Lower α → Prop
  /-- Whether the first run may fail alone. -/
  Lenient : Prop
  /-- Which names may be interned. -/
  Name : String → Prop
  Symbol : World → SymbolId → SymbolId → Prop
  Text : World → StringId → StringId → Prop
  composes : Composes fun f => Calm f
  later_trans {w w' w'' : World} : Later w w' → Later w' w'' → Later w w''
  symbol_later {w w' : World} {s t : SymbolId} : Symbol w s t → Later w w' → Symbol w' s t
  pure {w : World} {α β : Type} {a : α} {b : β} {R : World → α → β → Prop} : R w a b →
    Rel w (pure a) (pure b) R
  throw {w : World} {α β : Type} {e : CompileError} {R : World → α → β → Prop} :
    Rel w (throw e) (throw e) R
  miss {w : World} {α β : Type} {e : CompileError} {g : Lower β} {R : World → α → β → Prop} :
    Lenient → Rel w (MonadExcept.throw e : Lower α) g R
  bind {w : World} {α β γ δ : Type} {f : Lower α} {g : Lower β} {k : α → Lower γ}
    {l : β → Lower δ} {R : World → α → β → Prop} {S : World → γ → δ → Prop} : Rel w f g R →
    (∀ a, Calm (k a)) → (∀ w' a b, Later w w' → R w' a b → Rel w' (k a) (l b) S) →
    Rel w (f >>= k) (g >>= l) S
  symbol {w : World} {name : String} : Name name → Rel w (symbol name) (symbol name) Symbol
  string {w : World} {value : String} : Rel w (string value) (string value) Text
  warn {w : World} {d : Diagnostic} : Rel w (warn d) (warn d) fun _ _ _ => True

namespace Comparison

variable (c : Comparison)

def Proper (t : Token) : Prop := t.kind = .identifier → c.Name t.text

inductive Refers (w : c.World) : Reference → Reference → Prop
  | symbol {s t : SymbolId} : c.Symbol w s t → Refers w (.symbol s) (.symbol t)
  | string {s t : StringId} : c.Text w s t → Refers w (.string s) (.string t)

/-- One instruction that is appended to the code of its operands in both runs. -/
structure Pairs (env : Env) (w : c.World) (i j : Instruction) : Prop where
  nameless : i.isNameless
  form : i.form = j.form
  references : List.Forall₂ (c.Refers w) i.references j.references
  called : ∀ f argc, i = .unresolvedCall f argc → env.functions[f]? = some argc
  finite : ∀ x, i = .pushFloat x → x.isFinite

structure Environments (e f : Env) : Prop where
  owner : Option.Rel ClassLayout.Alike e.owner f.owner
  functions : ∀ name : String,
    e.functions[name]? = f.functions[name]? ∨ c.Lenient ∧ e.functions[name]? = none
  classes : ∀ name : String, Option.Rel ClassLayout.Alike e.classes[name]? f.classes[name]? ∨
    c.Lenient ∧ e.classes[name]? = none
  names : ∀ name ∈ e.classes, c.Name name

/-- Codes for so many values, compared in a way that every step of lowering an expression keeps. -/
structure Codes (env : Env) (C : c.World → Nat → Code → Code → Prop) : Prop where
  later {w w' : c.World} {k : Nat} {x y : Code} : C w k x y → c.Later w w' → C w' k x y
  nil {w : c.World} : C w 0 [] []
  append {w : c.World} {k m : Nat} {x y x' y' : Code} : C w k x y → C w m x' y' →
    C w (k + m) (x ++ x') (y ++ y')
  apply {w : c.World} {k : Nat} {x y : Code} {i j : Instruction} : C w k x y → i.takes = k →
    c.Pairs env w i j → C w 1 (x ++ [i]) (y ++ [j])
  this {w : c.World} : env.owner.isSome →
    C w 1 [.getVariable (.ofLocal 0)] [.getVariable (.ofLocal 0)]
  dup {w : c.World} {x y : Code} : C w 1 x y →
    C w 2 (x ++ [Instruction.dup]) (y ++ [Instruction.dup])
  construct {w : c.World} {s t : SymbolId} {x y : Code} {argc : UInt8} : C w argc.toNat x y →
    c.Symbol w s t → C w 1
      ([.createObject s, .dup] ++ x ++ [Instruction.lookupMethod s, .callIndirect argc, .pop])
      ([.createObject t, .dup] ++ y ++ [Instruction.lookupMethod t, .callIndirect argc, .pop])

end Comparison

end Lower

open Lower

namespace Lower.Comparison

variable {c : Comparison} {env e f : Env} {w w' : c.World}

theorem Environments.refl (h : ∀ name ∈ env.classes, c.Name name) : c.Environments env env where
  owner := by cases env.owner <;> constructor; exact .refl _
  functions _ := .inl rfl
  classes name := .inl (by cases env.classes[name]? <;> constructor; exact .refl _)
  names := h

namespace Pairs

variable {i : Instruction}

theorem plain (i : Instruction) (hi : i.isNameless := by rfl) (href : i.references = [] := by rfl)
    (hcalled : ∀ f argc, i = .unresolvedCall f argc → env.functions[f]? = some argc := by
      rintro _ _ ⟨⟩)
    (hfinite : ∀ x, i = .pushFloat x → x.isFinite := by rintro _ ⟨⟩) : c.Pairs env w i i :=
  ⟨hi, rfl, href ▸ .nil, hcalled, hfinite⟩

theorem string {s t : StringId} (h : c.Text w s t) :
    c.Pairs env w (.pushString s) (.pushString t) :=
  ⟨rfl, rfl, .cons (.string h) .nil, nofun, nofun⟩

/-- Instructions that refer to a symbol call no function by name and push no number. -/
theorem symbol {s t : SymbolId} (h : c.Symbol w s t) (make : SymbolId → Instruction)
    (hi : (make s).isNameless := by rfl) (hform : ∀ u, (make u).form = make ⟨0⟩ := by intro; rfl)
    (href : ∀ u, (make u).references = [.symbol u] := by intro; rfl) :
    c.Pairs env w (make s) (make t) := by
  refine ⟨hi, (hform s).trans (hform t).symm, ?_, fun f argc heq => ?_, fun x heq => ?_⟩
  · rw [href, href]
    exact .cons (.symbol h) .nil
  · have hnone := href s
    rw [heq] at hnone
    cases hnone
  · have hnone := href s
    rw [heq] at hnone
    cases hnone

theorem symbol₂ {s t u v : SymbolId} (h : c.Symbol w s t) (k : c.Symbol w u v)
    (make : SymbolId → SymbolId → Instruction) (hi : (make s u).isNameless := by rfl)
    (hform : ∀ x y, (make x y).form = make ⟨0⟩ ⟨0⟩ := by intros; rfl)
    (href : ∀ x y, (make x y).references = [.symbol x, .symbol y] := by intros; rfl) :
    c.Pairs env w (make s u) (make t v) := by
  refine ⟨hi, (hform s u).trans (hform t v).symm, ?_, fun f argc heq => ?_, fun x heq => ?_⟩
  · rw [href, href]
    exact .cons (.symbol h) (.cons (.symbol k) .nil)
  · have hnone := href s u
    rw [heq] at hnone
    cases hnone
  · have hnone := href s u
    rw [heq] at hnone
    cases hnone

end Pairs

theorem Codes.one {C : c.World → Nat → Code → Code → Prop} (hC : c.Codes env C)
    {i j : Instruction} (h : c.Pairs env w i j) (ht : i.takes = 0 := by rfl) : C w 1 [i] [j] :=
  hC.apply hC.nil ht h

end Lower.Comparison

/-! The steps of an expression. -/

section

variable {c : Comparison} {e f : Env} {w : c.World}

theorem isName_of_name? {x : Expr} (h : x.Names c.Proper) {name : String}
    (hname : x.name? = some name) : c.Name name := by
  unfold Expr.name? at hname
  split at hname
  · split at hname
    · next hk =>
      cases hname
      exact h hk
    · cases hname
  · cases hname

theorem namespaceSymbol_compares {x : Expr} (h : x.Names c.Proper) :
    c.Rel w (namespaceSymbol x) (namespaceSymbol x) c.Symbol := by
  unfold namespaceSymbol
  split
  · next hname => exact c.symbol (isName_of_name? h hname)
  · exact c.throw

theorem memberSymbol_compares {x : Expr} (h : x.Names c.Proper) :
    c.Rel w (memberSymbol x) (memberSymbol x) c.Symbol := by
  unfold memberSymbol
  split
  · next hname => exact c.symbol (isName_of_name? h hname)
  · exact c.throw

theorem checkArity_compares (name : String) (expected found : Nat) (span : Span) :
    c.Rel w (checkArity name expected found span) (checkArity name expected found span)
      fun _ _ _ => expected = found := by
  unfold checkArity
  split
  · next h => exact c.pure h
  · exact c.throw

theorem ownerOf_compares (henv : c.Environments e f) (this : Expr) :
    c.Rel w (e.ownerOf this) (f.ownerOf this) fun _ l m => l.Alike m ∧ e.owner.isSome := by
  have howner := henv.owner
  unfold Env.ownerOf
  generalize e.owner = a, f.owner = b at howner
  cases howner with
  | none => exact c.throw
  | some halike => exact c.pure ⟨halike, rfl⟩

theorem calm_afterSymbol (type : Token) (arguments : Option Nat) (layout : ClassLayout)
    (span : Span) (s : SymbolId) :
    c.Calm (match arguments, layout.constructorArity? with
      | some found, some arity => do
        checkArity type.text arity.toNat found span
        return (s, true)
      | some found, none => do
        checkArity type.text 0 found span
        return (s, false)
      | none, some _ => do
        Lower.warn (constructorNotCalled type span)
        return (s, false)
      | none, none => return (s, false)) := by
  have h := c.composes
  split
  · exact h.bind (checkArity_composed h _ _ _ _) fun _ => h.pure _
  · exact h.bind (checkArity_composed h _ _ _ _) fun _ => h.pure _
  · exact h.bind (h.warn _ _) fun _ => h.pure _
  · exact h.pure _

/-- A constructor that is run takes as many arguments as fit a byte. -/
theorem planConstruct_compares (henv : c.Environments e f) (type : Token) (arguments : Option Nat)
    (span : Span) :
    c.Rel w (planConstruct e type arguments span) (planConstruct f type arguments span)
      fun w a b => c.Symbol w a.1 b.1 ∧ a.2 = b.2 ∧ (a.2 → ∀ n ∈ arguments, n ≤ 255) := by
  have hpure (r : SymbolId × Bool) : c.Calm (pure r) := c.composes.pure r
  unfold planConstruct
  rcases henv.classes type.text with hclass | ⟨hmiss, hnone⟩
  · cases he : e.classes[type.text]? with
    | none =>
      rw [he] at hclass
      generalize f.classes[type.text]? = m at hclass
      cases hclass
      exact c.throw
    | some l =>
      have hname : c.Name type.text :=
        henv.names _ (Std.TreeMap.mem_iff_isSome_getElem?.mpr (he ▸ rfl))
      rw [he] at hclass
      generalize f.classes[type.text]? = m at hclass
      cases hclass with
      | some halike =>
      dsimp only
      refine c.bind (c.symbol hname) (calm_afterSymbol type arguments l span) ?_
      intro w' s t _ hst
      rw [halike.constructorArity?]
      split
      · next found arity _ =>
        refine c.bind (checkArity_compares _ _ _ _) (fun _ => hpure _) ?_
        intro w'' _ _ hlater hcount
        have hlt := arity.toNat_lt
        refine c.pure ⟨c.symbol_later hst hlater, rfl, fun _ n hn => ?_⟩
        cases hn
        omega
      · refine c.bind (checkArity_compares _ _ _ _) (fun _ => hpure _) ?_
        intro w'' _ _ hlater _
        exact c.pure ⟨c.symbol_later hst hlater, rfl, nofun⟩
      · refine c.bind c.warn (fun _ => hpure _) ?_
        intro w'' _ _ hlater _
        exact c.pure ⟨c.symbol_later hst hlater, rfl, nofun⟩
      · exact c.pure ⟨hst, rfl, nofun⟩
  · rw [hnone]
    exact c.miss hmiss

end

section

variable {c : Comparison} {C : c.World → Nat → Code → Code → Prop} {e f : Env}
  {read read' : Token → Lower Code} {w : c.World}

theorem pushInteger?_compares (hC : c.Codes e C) {v : Int} {i : Instruction}
    (h : Instruction.pushInteger? v = some i) : C w 1 [i] [i] := by
  unfold Instruction.pushInteger? at h
  split_ifs at h <;> cases h <;> exact hC.one (.plain _)

theorem lowerLiteral_compares (hC : c.Codes e C) (t : Token) :
    c.Rel w (lowerLiteral t) (lowerLiteral t) fun w => C w 1 := by
  unfold lowerLiteral
  split
  · cases h : Instruction.ofIntegerText? t.text with
    | none => exact c.throw
    | some i =>
      obtain ⟨v, -, hv⟩ := Option.bind_eq_some_iff.mp h
      exact c.pure (pushInteger?_compares hC hv)
  · cases h : Binary32.read? t.text.toList with
    | none => exact c.throw
    | some x =>
      refine c.pure (hC.one (.plain (.pushFloat x) rfl rfl nofun ?_))
      rintro y ⟨⟩
      exact Binary32.isFinite_of_read? h
  · refine c.bind c.string (fun _ => c.composes.pure _) ?_
    intro w' s t _ hst
    exact c.pure (hC.one (.string hst))
  · exact c.pure (hC.one (.plain _))
  · exact c.pure (hC.one (.plain _))
  · exact c.pure (hC.one (.plain _))
  · exact c.throw

/-- How operands run is known, in every world. -/
structure Lower.Comparison.Operand (c : Comparison) (C : c.World → Nat → Code → Code → Prop)
    (k : Nat) (x y : Lower Code) : Prop where
  calm : c.Calm x
  rel : ∀ w, c.Rel w x y fun w => C w k

theorem operand_of (hread : ∀ t, c.Operand C 1 (read t) (read' t)) {x : Expr}
    (h : ∀ w, c.Rel w (lowerExpr e read x) (lowerExpr f read' x) fun w => C w 1) :
    c.Operand C 1 (lowerExpr e read x) (lowerExpr f read' x) :=
  ⟨lowerExpr_composed c.composes (fun t => (hread t).calm) x, h⟩

theorem operands_of (hread : ∀ t, c.Operand C 1 (read t) (read' t)) {xs : List Expr}
    (h : ∀ w, c.Rel w (lowerAll e read [] xs) (lowerAll f read' [] xs)
      fun w => C w (0 + xs.length)) :
    c.Operand C xs.length (lowerAll e read [] xs) (lowerAll f read' [] xs) := by
  refine ⟨lowerAll_composed c.composes (fun t => (hread t).calm) xs [], fun w => ?_⟩
  have h := h w
  rwa [Nat.zero_add] at h

namespace Lower.Comparison.Operand

variable {k m : Nat} {x y x' y' : Lower Code} {i j : Instruction}
  {Q : c.World → Code → Code → Prop}

/-- An instruction behind the code of one operand. -/
theorem then_one (h : c.Operand C k x y)
    (hQ : ∀ v a b, c.Later w v → C v k a b → Q v (a ++ [i]) (b ++ [j])) :
    c.Rel w (do return (← x) ++ [i]) (do return (← y) ++ [j]) Q := by
  refine c.bind (h.rel w) (fun _ => c.composes.pure _) ?_
  intro v a b hlater hab
  exact c.pure (hQ v a b hlater hab)

theorem then_two (hC : c.Codes e C) (h : c.Operand C k x y) (h' : c.Operand C m x' y')
    (hQ : ∀ v a b, c.Later w v → C v (k + m) a b → Q v (a ++ [i]) (b ++ [j])) :
    c.Rel w (do let a ← x; let b ← x'; return a ++ b ++ [i])
      (do let a ← y; let b ← y'; return a ++ b ++ [j]) Q := by
  refine c.bind (h.rel w) (fun _ => c.composes.bind h'.calm fun _ => c.composes.pure _) ?_
  intro v a b hlater hab
  refine c.bind (h'.rel v) (fun _ => c.composes.pure _) ?_
  intro u a' b' hlater' hab'
  exact c.pure (hQ u _ _ (c.later_trans hlater hlater') (hC.append (hC.later hab hlater') hab'))

/-- A receiver that is there twice, for a call of its method. -/
theorem then_dup (hC : c.Codes e C) (h : c.Operand C 1 x y) (h' : c.Operand C m x' y')
    (hQ : ∀ v a b, c.Later w v → C v (2 + m) a b → Q v (a ++ [i]) (b ++ [j])) :
    c.Rel w (do let a ← x; return a ++ [Instruction.dup] ++ (← x') ++ [i])
      (do let a ← y; return a ++ [Instruction.dup] ++ (← y') ++ [j]) Q := by
  refine c.bind (h.rel w) (fun _ => c.composes.bind h'.calm fun _ => c.composes.pure _) ?_
  intro v a b hlater hab
  refine c.bind (h'.rel v) (fun _ => c.composes.pure _) ?_
  intro u a' b' hlater' hab'
  refine c.pure (hQ u _ _ (c.later_trans hlater hlater') ?_)
  exact hC.append (hC.dup (hC.later hab hlater')) hab'

end Lower.Comparison.Operand

theorem lowerVariable_compares (hC : c.Codes e C) (henv : c.Environments e f)
    (hread : ∀ t, c.Operand C 1 (read t) (read' t)) (t : Token) :
    c.Rel w (lowerVariable e read t) (lowerVariable f read' t) fun w => C w 1 := by
  unfold lowerVariable
  split
  · refine c.bind (ownerOf_compares henv _) (fun _ => c.composes.pure _) ?_
    intro w' l m _ hlm
    exact c.pure (hC.this hlm.2)
  · exact (hread t).rel w
  · exact c.throw

theorem binary_compares (hC : c.Codes e C) (henv : c.Environments e f) {left right : Expr}
    (hl : left.Names c.Proper) (hr : right.Names c.Proper)
    (hleft : c.Operand C 1 (lowerExpr e read left) (lowerExpr f read' left))
    (hright : c.Operand C 1 (lowerExpr e read right) (lowerExpr f read' right)) (op : Token) :
    c.Rel w (lowerExpr e read (.binary left op right)) (lowerExpr f read' (.binary left op right))
      fun w => C w 1 := by
  have h := c.composes
  simp only [lowerExpr]
  split
  · split
    · split
      · exact hleft.then_one fun _ _ _ _ hab => hC.apply hab rfl (.plain _)
      · split
        · refine c.bind (ownerOf_compares henv _) ?_ fun w' _ _ _ _ => ?_
          · exact fun _ => h.bind (memberSymbol_composed h _) fun _ => h.pure _
          · refine c.bind (memberSymbol_compares hr) (fun _ => h.pure _) fun w'' s t _ hst => ?_
            exact c.pure (hC.one (.symbol hst .getThisMember))
        · refine c.bind (memberSymbol_compares hr) ?_ fun w' s t _ hst => ?_
          · exact fun _ => h.bind hleft.calm fun _ => h.pure _
          · exact hleft.then_one fun _ _ _ hlater hab =>
              hC.apply hab rfl (.symbol (c.symbol_later hst hlater) .getMember)
    · exact c.throw
  · exact hleft.then_two hC hright fun _ _ _ _ hab => hC.apply hab rfl (.plain _)
  · refine c.bind (namespaceSymbol_compares hl) ?_ fun w' s t _ hst => ?_
    · exact fun _ => h.bind (memberSymbol_composed h _) fun _ => h.pure _
    · refine c.bind (memberSymbol_compares hr) (fun _ => h.pure _) fun w'' u v hlater huv => ?_
      exact c.pure (hC.one (.symbol₂ (c.symbol_later hst hlater) huv .getGameVariable))
  · refine c.bind (namespaceSymbol_compares hl) ?_ fun w' s t _ hst => ?_
    · exact fun _ => h.bind hright.calm fun _ => h.pure _
    · exact hright.then_one fun _ _ _ hlater hab =>
        hC.apply hab rfl (.symbol (c.symbol_later hst hlater) .getDynamicGameVariable)
  · exact hleft.then_two hC hright fun _ _ _ _ hab => hC.apply hab rfl (.plain _)
  · exact c.throw

/-! Calls. -/

theorem toNat_argc {k : Nat} (h : ¬ 255 < k) : (UInt8.ofNat k).toNat = k :=
  UInt8.toNat_ofNat_of_lt' (by simp only [UInt8.size]; omega)

section

variable {arguments : List Expr}

theorem callFunction_compares (hC : c.Codes e C) (henv : c.Environments e f)
    (hargs : c.Operand C arguments.length (lowerAll e read [] arguments)
      (lowerAll f read' [] arguments)) (g : Token) (span : Span) :
    c.Rel w (lowerExpr e read (.call (.variable g) arguments span))
      (lowerExpr f read' (.call (.variable g) arguments span)) fun w => C w 1 := by
  have h := c.composes
  simp only [lowerExpr]
  split
  · exact c.throw
  next hlen =>
  split
  · exact c.throw
  rcases henv.functions g.text with hsame | ⟨hmiss, hnone⟩
  · rw [← hsame]
    split
    · exact c.throw
    · next arity harity =>
      refine c.bind (checkArity_compares _ _ _ _) ?_ fun w' _ _ _ hcount => ?_
      · exact fun _ => h.bind hargs.calm fun _ => h.pure _
      · refine hargs.then_one fun _ _ _ _ hab =>
          hC.apply hab (toNat_argc hlen) (.plain _ rfl rfl ?_)
        rintro name argc ⟨⟩
        rw [harity, ← hcount, UInt8.ofNat_toNat]
  · rw [hnone]
    exact c.miss hmiss

theorem callMember_compares (hC : c.Codes e C) (henv : c.Environments e f) {left : Expr}
    {op member : Token} (hop : op.kind = .access .member) (hname : c.Proper member)
    (hleft : c.Operand C 1 (lowerExpr e read left) (lowerExpr f read' left))
    (hargs : c.Operand C arguments.length (lowerAll e read [] arguments)
      (lowerAll f read' [] arguments)) (span : Span) :
    c.Rel w (lowerExpr e read (.call (.binary left op (.variable member)) arguments span))
      (lowerExpr f read' (.call (.binary left op (.variable member)) arguments span))
      fun w => C w 1 := by
  have h := c.composes
  simp only [lowerExpr, hop]
  split
  · exact c.throw
  next hlen =>
  have hargc := toNat_argc hlen
  split
  · exact c.throw
  next hk =>
  have hname := hname (not_not.mp hk)
  split
  · refine c.bind (ownerOf_compares henv _) ?_ fun w' l m _ hlm => ?_
    · intro layout
      split
      · exact h.throw _
      · exact h.bind (checkArity_composed h _ _ _ _) fun _ =>
          h.bind (h.symbol _) fun _ => h.bind hargs.calm fun _ => h.pure _
    · rw [hlm.1.methods]
      split
      · exact c.throw
      · refine c.bind (checkArity_compares _ _ _ _) ?_ fun w' _ _ _ _ => ?_
        · exact fun _ => h.bind (h.symbol _) fun _ => h.bind hargs.calm fun _ => h.pure _
        · refine c.bind (c.symbol hname) ?_ fun w' s t _ hst => ?_
          · exact fun _ => h.bind hargs.calm fun _ => h.pure _
          · exact hargs.then_one fun _ _ _ hlater hab =>
              hC.apply hab hargc (.symbol (c.symbol_later hst hlater) (.callThisMethod · _))
  · split
    · next o _ =>
      refine c.bind (checkArity_compares _ _ _ _) ?_ fun w' _ _ _ hcount => ?_
      · exact fun _ => h.bind hleft.calm fun _ => h.bind hargs.calm fun _ => h.pure _
      · refine hleft.then_two hC hargs fun _ _ _ _ hab => hC.apply hab ?_ (.plain _)
        rw [← hcount, Nat.add_comm]
        rfl
    · refine c.bind (c.symbol hname) ?_ fun w' s t _ hst => ?_
      · exact fun _ => h.bind hleft.calm fun _ => h.bind hargs.calm fun _ => h.pure _
      · refine hleft.then_dup hC hargs fun _ _ _ hlater hab =>
          hC.apply hab ?_ (.symbol (c.symbol_later hst hlater) (.callMethod · _))
        show (UInt8.ofNat arguments.length).toNat + 2 = _
        rw [hargc, Nat.add_comm]

theorem callDynamic_compares (hC : c.Codes e C) {left right : Expr} {op : Token}
    (hop : op.kind = .access .dynamicMember)
    (hleft : c.Operand C 1 (lowerExpr e read left) (lowerExpr f read' left))
    (hright : c.Operand C 1 (lowerExpr e read right) (lowerExpr f read' right))
    (hargs : c.Operand C arguments.length (lowerAll e read [] arguments)
      (lowerAll f read' [] arguments)) (span : Span) :
    c.Rel w (lowerExpr e read (.call (.binary left op right) arguments span))
      (lowerExpr f read' (.call (.binary left op right) arguments span)) fun w => C w 1 := by
  have h := c.composes
  simp only [lowerExpr, hop]
  split
  · exact c.throw
  next hlen =>
  refine c.bind (hleft.rel w) ?_ fun v a b _ hab => ?_
  · exact fun _ => h.bind hright.calm fun _ => h.bind hargs.calm fun _ => h.pure _
  refine c.bind (hright.rel v) ?_ fun v a' b' hlater hab' => ?_
  · exact fun _ => h.bind hargs.calm fun _ => h.pure _
  have htwo := hC.append (hC.dup (hC.later hab hlater)) hab'
  refine c.bind (hargs.rel v) (fun _ => h.pure _) fun v _ _ hlater hargs => ?_
  refine c.pure (hC.apply (hC.append (hC.later htwo hlater) hargs) ?_ (.plain _))
  show (UInt8.ofNat arguments.length).toNat + 3 = _
  rw [toNat_argc hlen, Nat.add_comm]

theorem callScope_compares (hC : c.Codes e C) {left right : Expr} {op : Token}
    (hop : op.kind = .access .scope) (hl : left.Names c.Proper) (hr : right.Names c.Proper)
    (hargs : c.Operand C arguments.length (lowerAll e read [] arguments)
      (lowerAll f read' [] arguments)) (span : Span) :
    c.Rel w (lowerExpr e read (.call (.binary left op right) arguments span))
      (lowerExpr f read' (.call (.binary left op right) arguments span)) fun w => C w 1 := by
  have h := c.composes
  simp only [lowerExpr, hop]
  split
  · exact c.throw
  next hlen =>
  refine c.bind (namespaceSymbol_compares hl) ?_ fun v s t _ hst => ?_
  · exact fun _ => h.bind (memberSymbol_composed h _) fun _ => h.bind hargs.calm fun _ => h.pure _
  refine c.bind (memberSymbol_compares hr) ?_ fun v s' t' hlater hst' => ?_
  · exact fun _ => h.bind hargs.calm fun _ => h.pure _
  have hst := c.symbol_later hst hlater
  exact hargs.then_one fun _ _ _ hlater hab => hC.apply hab (toNat_argc hlen)
    (.symbol₂ (c.symbol_later hst hlater) (c.symbol_later hst' hlater) (.callGameFunction · · _))

theorem callDynamicScope_compares (hC : c.Codes e C) {left right : Expr} {op : Token}
    (hop : op.kind = .access .dynamicScope) (hl : left.Names c.Proper)
    (hright : c.Operand C 1 (lowerExpr e read right) (lowerExpr f read' right))
    (hargs : c.Operand C arguments.length (lowerAll e read [] arguments)
      (lowerAll f read' [] arguments)) (span : Span) :
    c.Rel w (lowerExpr e read (.call (.binary left op right) arguments span))
      (lowerExpr f read' (.call (.binary left op right) arguments span)) fun w => C w 1 := by
  have h := c.composes
  simp only [lowerExpr, hop]
  split
  · exact c.throw
  next hlen =>
  refine c.bind (namespaceSymbol_compares hl) ?_ fun v s t _ hst => ?_
  · exact fun _ => h.bind hright.calm fun _ => h.bind hargs.calm fun _ => h.pure _
  · refine hright.then_two hC hargs fun _ _ _ hlater hab =>
      hC.apply hab ?_ (.symbol (c.symbol_later hst hlater) (.callDynamicGameFunction · _))
    show (UInt8.ofNat arguments.length).toNat + 1 = _
    rw [toNat_argc hlen, Nat.add_comm]

theorem call_compares (hC : c.Codes e C) (henv : c.Environments e f) {left right : Expr}
    (hl : left.Names c.Proper) (hr : right.Names c.Proper)
    (hleft : c.Operand C 1 (lowerExpr e read left) (lowerExpr f read' left))
    (hright : c.Operand C 1 (lowerExpr e read right) (lowerExpr f read' right))
    (hargs : c.Operand C arguments.length (lowerAll e read [] arguments)
      (lowerAll f read' [] arguments)) (op : Token) (span : Span) :
    c.Rel w (lowerExpr e read (.call (.binary left op right) arguments span))
      (lowerExpr f read' (.call (.binary left op right) arguments span)) fun w => C w 1 := by
  cases hop : op.kind with
  | access a =>
    cases a with
    | member =>
      cases right with
      | «variable» member => exact callMember_compares hC henv hop hr hleft hargs span
      | _ =>
        simp only [lowerExpr, hop]
        split <;> exact c.throw
    | dynamicMember => exact callDynamic_compares hC hop hleft hright hargs span
    | scope => exact callScope_compares hC hop hl hr hargs span
    | dynamicScope => exact callDynamicScope_compares hC hop hl hright hargs span
  | _ =>
    simp only [lowerExpr, hop]
    split <;> exact c.throw

theorem construct_compares (hC : c.Codes e C) (henv : c.Environments e f)
    (hargs : c.Operand C arguments.length (lowerAll e read [] arguments)
      (lowerAll f read' [] arguments)) (type : Token) (span : Span) :
    c.Rel w (lowerExpr e read (.construct type (some arguments) span))
      (lowerExpr f read' (.construct type (some arguments) span)) fun w => C w 1 := by
  have h := c.composes
  simp only [lowerExpr]
  refine c.bind (planConstruct_compares henv _ _ _) ?_ fun w' a b _ hab => ?_
  · rintro ⟨s, runs⟩
    cases runs with
    | true => exact h.bind hargs.calm fun _ => h.pure _
    | false => exact h.pure _
  obtain ⟨s, runs⟩ := a
  obtain ⟨t, runs'⟩ := b
  obtain ⟨hst, rfl, hcount⟩ := hab
  cases runs with
  | true =>
    have hlen := hcount rfl _ rfl
    refine c.bind (hargs.rel w') (fun _ => h.pure _) fun w'' x y hlater hxy => ?_
    refine c.pure (hC.construct ?_ (c.symbol_later hst hlater))
    rw [toNat_argc (Nat.not_lt.mpr hlen)]
    exact hxy
  | false => exact c.pure (hC.one (.symbol hst .createObject))

end

/-! Expressions. -/

mutual

/-- What the steps of lowering keep holds of every expression. -/
theorem lowerExpr_compares (hC : c.Codes e C) (henv : c.Environments e f)
    (hread : ∀ t, c.Operand C 1 (read t) (read' t)) :
    (x : Expr) → x.Names c.Proper → (w : c.World) →
      c.Rel w (lowerExpr e read x) (lowerExpr f read' x) fun w => C w 1
  | .literal t, _, w => by
    simp only [lowerExpr]
    exact lowerLiteral_compares hC t
  | .variable t, _, w => by
    simp only [lowerExpr]
    exact lowerVariable_compares hC henv hread t
  | .grouping x, hx, w => by
    simp only [lowerExpr]
    exact lowerExpr_compares hC henv hread x hx w
  | .unary op x _, hx, w => by
    have hoperand := operand_of hread (lowerExpr_compares hC henv hread x hx)
    simp only [lowerExpr]
    cases UnaryOp.ofKind? op.kind with
    | none => exact c.bind (hoperand.rel w) (fun _ => c.composes.throw _) fun _ _ _ _ _ => c.throw
    | some o => exact hoperand.then_one fun _ _ _ _ hab => hC.apply hab rfl (.plain _)
  | .binary left op right, hx, w =>
    binary_compares hC henv hx.1 hx.2
      (operand_of hread (lowerExpr_compares hC henv hread left hx.1))
      (operand_of hread (lowerExpr_compares hC henv hread right hx.2)) op
  | .index array at_ _, hx, w => by
    have harray := operand_of hread (lowerExpr_compares hC henv hread array hx.1)
    have hindex := operand_of hread (lowerExpr_compares hC henv hread at_ hx.2)
    simp only [lowerExpr]
    exact harray.then_two hC hindex fun _ _ _ _ hab => hC.apply hab rfl (.plain _)
  | .array elements span, hx, w => by
    have hall := operands_of hread fun w => lowerAll_compares hC henv hread elements hx w hC.nil
    simp only [lowerExpr]
    split
    · exact c.throw
    · refine hall.then_one fun _ _ _ _ hab => hC.apply hab ?_ (.plain _)
      exact UInt16.toNat_ofNat_of_lt' (by simp only [UInt16.size]; omega)
  | .call target arguments span, hx, w => by
    have hargs := operands_of hread fun w =>
      lowerAll_compares hC henv hread arguments hx.2 w hC.nil
    cases target with
    | «variable» g => exact callFunction_compares hC henv hargs g span
    | binary left op right =>
      obtain ⟨hl, hr⟩ := hx.1
      exact call_compares hC henv hl hr
        (operand_of hread (lowerExpr_compares hC henv hread left hl))
        (operand_of hread (lowerExpr_compares hC henv hread right hr)) hargs op span
    | _ =>
      simp only [lowerExpr]
      split
      all_goals exact c.throw
  | .construct type none span, _, w => by
    simp only [lowerExpr]
    refine c.bind (planConstruct_compares henv _ _ _) (fun _ => c.composes.pure _) ?_
    intro w' _ _ _ hr
    exact c.pure (hC.one (.symbol hr.1 .createObject))
  | .construct type (some arguments) span, hx, w =>
    construct_compares hC henv (operands_of hread fun w =>
      lowerAll_compares hC henv hread arguments hx w hC.nil) type span
  | .pending type, _, w => by
    simp only [lowerExpr]
    exact c.throw
termination_by x => sizeOf x
decreasing_by all_goals (subst_vars; simp +arith)

theorem lowerAll_compares (hC : c.Codes e C) (henv : c.Environments e f)
    (hread : ∀ t, c.Operand C 1 (read t) (read' t)) :
    (xs : List Expr) → Expr.AllNames c.Proper xs → (w : c.World) → {k : Nat} → {a b : Code} →
      C w k a.reverse b.reverse →
      c.Rel w (lowerAll e read a xs) (lowerAll f read' b xs) fun w => C w (k + xs.length)
  | [], _, w, k, a, b, hab => by
    simp only [lowerAll]
    exact c.pure hab
  | x :: xs, hxs, w, k, a, b, hab => by
    simp only [lowerAll]
    refine c.bind (lowerExpr_compares hC henv hread x hxs.1 w)
      (fun _ => lowerAll_composed c.composes (fun t => (hread t).calm) xs _) ?_
    intro w' x' y' hlater hxy
    rw [List.length_cons, Nat.add_comm xs.length, ← Nat.add_assoc]
    refine lowerAll_compares hC henv hread xs hxs.2 w' ?_
    rw [List.reverse_append, List.reverse_append, List.reverse_reverse, List.reverse_reverse]
    exact hC.append (hC.later hab hlater) hxy
termination_by xs => sizeOf xs
decreasing_by all_goals simp +arith

end

/-! Names in scopes. -/

/-- Every name that scopes resolve is read by code for one value. -/
structure Lower.Comparison.Reads (c : Comparison) (C : c.World → Nat → Code → Code → Prop)
    (e f : Env) (scopes : Scopes) : Prop where
  global (t : Token) (w : c.World) : c.Rel w (readGlobal e t) (readGlobal f t)
    fun w s s' => C w 1 [.getVariable s] [.getVariable s']
  slot {name : String} {frame : Nat} {i : UInt16} (w : c.World) :
    scopes.resolveFrom name frame = some (.slot i) →
      C w 1 [.getVariable (.ofLocal i)] [.getVariable (.ofLocal i)]
  element {name : String} {frame : Nat} {collection : Expr} {i : UInt16} {outer : Nat}
    (w : c.World) : scopes.resolveFrom name frame = some (.element collection i outer) →
      collection.Names c.Proper ∧ C w 1 [.getVariable (.ofLocal i)] [.getVariable (.ofLocal i)]

theorem readGlobal_operand {scopes : Scopes} (hs : c.Reads C e f scopes) (t : Token) :
    c.Operand C 1 (do return [.getVariable (← readGlobal e t)])
      (do return [.getVariable (← readGlobal f t)]) := by
  constructor
  · exact c.composes.bind (readGlobal_composed c.composes t) fun _ => c.composes.pure _
  · intro w
    refine c.bind (hs.global t w) (fun _ => c.composes.pure _) ?_
    intro v s s' _ hslot
    exact c.pure hslot

theorem readFrom_compares (hC : c.Codes e C) (henv : c.Environments e f) {scopes : Scopes}
    (hs : c.Reads C e f scopes) (frame : Nat) (t : Token) :
    c.Operand C 1 (readFrom e scopes frame t) (readFrom f scopes frame t) := by
  refine ⟨readFrom_composed c.composes scopes frame t, fun w => ?_⟩
  -- the frame goes down with every loop that is left
  induction frame using Nat.strongRecOn generalizing t w with
  | ind frame ih =>
    unfold readFrom
    split
    · exact (readGlobal_operand hs t).rel w
    · next i hi => exact c.pure (hs.slot w hi)
    · next collection i outer hi =>
      split
      · next hlt =>
        have hread (t : Token) : c.Operand C 1 (readFrom e scopes outer t)
            (readFrom f scopes outer t) :=
          ⟨readFrom_composed c.composes scopes outer t, fun w => ih outer hlt t w⟩
        refine c.bind (lowerExpr_compares hC henv hread collection (hs.element w hi).1 w)
          (fun _ => c.composes.pure _) ?_
        intro v a b _ hab
        have htwo := hC.append hab (hs.element v hi).2
        have hone := hC.apply htwo rfl (.plain .getElement)
        rw [List.append_assoc, List.append_assoc] at hone
        exact c.pure hone
      · exact c.throw

theorem readName_compares (hC : c.Codes e C) (henv : c.Environments e f) {scopes : Scopes}
    (hs : c.Reads C e f scopes) (t : Token) :
    c.Operand C 1 (readName e scopes t) (readName f scopes t) := by
  unfold readName
  split
  · exact readFrom_compares hC henv hs _ t
  · exact readGlobal_operand hs t

theorem lower_compares (hC : c.Codes e C) (henv : c.Environments e f) {scopes : Scopes}
    (hs : c.Reads C e f scopes) {x : Expr} (hx : x.Names c.Proper) (w : c.World) :
    c.Rel w (lower e scopes x) (lower f scopes x) fun w => C w 1 :=
  lowerExpr_compares hC henv (readName_compares hC henv hs) x hx w

/-! Assignments. How the slot of a name is found is left open. -/

/-- One instruction in both runs that stores what was computed. -/
structure Lower.Comparison.Stores (c : Comparison) (w : c.World) (A : c.World → Slot → Prop)
    (i j : Instruction) : Prop where
  store : i.isStore
  form : i.form = j.form
  references : List.Forall₂ (c.Refers w) i.references j.references
  slot : ∀ s, i = .setVariable s → A w s

/-- What stores elsewhere than in a slot. -/
theorem Lower.Comparison.Stores.other {A : c.World → Slot → Prop} {i j : Instruction}
    (href : List.Forall₂ (c.Refers w) i.references j.references) (hi : i.isStore := by rfl)
    (hform : i.form = j.form := by rfl)
    (hslot : ∀ s, i ≠ .setVariable s := by rintro _ ⟨⟩) : c.Stores w A i j :=
  ⟨hi, hform, href, fun s hs => absurd hs (hslot s)⟩

/-- The operands of an assignment, and then what stores. -/
def Lower.Comparison.Assigns (c : Comparison) (C : c.World → Nat → Code → Code → Prop)
    (A : c.World → Slot → Prop) (w : c.World) (a b : Code) : Prop :=
  ∃ x y i j, a = x ++ [i] ∧ b = y ++ [j] ∧ C w i.takes x y ∧ c.Stores w A i j

section

variable {A : c.World → Slot → Prop}

theorem Lower.Comparison.Assigns.intro {k : Nat} {x y : Code} {i j : Instruction}
    (hxy : C w k x y) (hij : c.Stores w A i j) (ht : i.takes = k := by rfl) :
    c.Assigns C A w (x ++ [i]) (y ++ [j]) :=
  ⟨x, y, i, j, rfl, rfl, ht ▸ hxy, hij⟩

theorem then_three {x y x' y' x'' y'' : Lower Code} {i j : Instruction}
    {Q : c.World → Code → Code → Prop} {k l m : Nat} (hC : c.Codes e C) (h : c.Operand C k x y)
    (h' : c.Operand C l x' y') (h'' : c.Operand C m x'' y'')
    (hQ : ∀ v a b, c.Later w v → C v (k + l + m) a b → Q v (a ++ [i]) (b ++ [j])) :
    c.Rel w (do let a ← x; let b ← x'; return a ++ b ++ (← x'') ++ [i])
      (do let a ← y; let b ← y'; return a ++ b ++ (← y'') ++ [j]) Q := by
  have hcalm := c.composes
  refine c.bind (h.rel w) (fun _ => hcalm.bind h'.calm fun _ =>
    hcalm.bind h''.calm fun _ => hcalm.pure _) ?_
  intro v a b hlater hab
  refine c.bind (h'.rel v) (fun _ => hcalm.bind h''.calm fun _ => hcalm.pure _) ?_
  intro u a' b' hlater' hab'
  refine c.bind (h''.rel u) (fun _ => hcalm.pure _) ?_
  intro t a'' b'' hlater'' hab''
  have htwo := hC.append (hC.later hab hlater') hab'
  refine c.pure (hQ t _ _ (c.later_trans (c.later_trans hlater hlater') hlater'') ?_)
  exact hC.append (hC.later htwo hlater'') hab''

/-- An assignment computes what its target is made of and then its value, which it stores. -/
theorem assignOver_compares (hC : c.Codes e C) (henv : c.Environments e f)
    (hread : ∀ t, c.Operand C 1 (read t) (read' t)) {assigned assigned' : Token → Lower Slot}
    (hassigned : ∀ t w, c.Rel w (assigned t) (assigned' t) fun w s s' => s = s' ∧ A w s)
    (hA : ∀ {w w' s}, A w s → c.Later w w' → A w' s) {target value : Expr}
    (ht : target.Names c.Proper) (hv : value.Names c.Proper) :
    c.Rel w (assignOver e read assigned target value) (assignOver f read' assigned' target value)
      (c.Assigns C A) := by
  have h := c.composes
  have hlower {x : Expr} (hx : x.Names c.Proper) :
      c.Operand C 1 (lowerExpr e read x) (lowerExpr f read' x) :=
    operand_of hread (lowerExpr_compares hC henv hread x hx)
  have hvalue := hlower hv
  simp only [assignOver, exprOver_lower]
  split
  · split
    · exact c.throw
    · refine c.bind (hassigned _ w) (fun _ => h.bind hvalue.calm fun _ => h.pure _) ?_
      rintro v s _ - ⟨rfl, hs⟩
      refine hvalue.then_one fun _ _ _ hlater hab => .intro hab ⟨rfl, rfl, .nil, ?_⟩
      rintro _ ⟨⟩
      exact hA hs hlater
  · next left op right =>
    obtain ⟨hl, hr⟩ := ht
    split
    · split
      · exact c.throw
      · next member hmember =>
        refine c.bind (c.symbol (isName_of_name? hr hmember)) ?_ fun v s t _ hst => ?_
        · intro s
          split
          · exact h.bind (ownerOf_composed h _) fun _ => h.bind hvalue.calm fun _ => h.pure _
          · exact h.bind (hlower hl).calm fun _ => h.bind hvalue.calm fun _ => h.pure _
        split
        · refine c.bind (ownerOf_compares henv _) ?_ fun u _ _ hlater _ => ?_
          · exact fun _ => h.bind hvalue.calm fun _ => h.pure _
          · have hst := c.symbol_later hst hlater
            exact hvalue.then_one fun _ _ _ hlater hab =>
              .intro hab (.other (.cons (.symbol (c.symbol_later hst hlater)) .nil))
        · exact (hlower hl).then_two hC hvalue fun _ _ _ hlater hab =>
            .intro hab (.other (.cons (.symbol (c.symbol_later hst hlater)) .nil))
    · exact then_three hC (hlower hl) (hlower hr) hvalue fun _ _ _ _ hab =>
        .intro hab (.other .nil)
    · refine c.bind (namespaceSymbol_compares hl) ?_ fun v s t _ hst => ?_
      · exact fun _ => h.bind (memberSymbol_composed h _) fun _ => h.bind hvalue.calm fun _ =>
          h.pure _
      refine c.bind (memberSymbol_compares hr) ?_ fun v s' t' hlater hst' => ?_
      · exact fun _ => h.bind hvalue.calm fun _ => h.pure _
      have hst := c.symbol_later hst hlater
      refine hvalue.then_one fun _ _ _ hlater hab => .intro hab (.other ?_)
      exact .cons (.symbol (c.symbol_later hst hlater))
        (.cons (.symbol (c.symbol_later hst' hlater)) .nil)
    · exact c.throw
  · exact then_three hC (hlower ht.1) (hlower ht.2) hvalue fun _ _ _ _ hab =>
      .intro hab (.other .nil)
  · exact c.throw

end

end

end Lss
