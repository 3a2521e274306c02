import Lss.Proofs.Lexical
import Lss.Proofs.Repeated
import Lss.Proofs.Rounds
import Lss.Proofs.TreeTokens

/-!
# Lowering overlooks places

Where the tokens of a tree stand is of no consequence for its code, as long as lines are not marked.
Places only get into errors and warnings; and the names that stand for elements of loops are kept by
what they mean.
-/
namespace Lss

open Lower

namespace Lower

variable {α β γ δ : Type}

/-- Two runs both failed, or they gave results that are as `R` says and left the same tables. -/
inductive Both (R : α → β → Prop) :
    Except CompileError α × Pool → Except CompileError β × Pool → Prop
  | ok {a : α} {b : β} {p q : Pool} : R a b → p.SameTables q → Both R (.ok a, p) (.ok b, q)
  | error {e e' : CompileError} {p q : Pool} : Both R (.error e, p) (.error e', q)

/-- From the same tables `f` and `g` come to the same, whatever they complain of. -/
def Parallel (f : Lower α) (g : Lower β) (R : α → β → Prop) : Prop :=
  ∀ p q : Pool, p.SameTables q → Both R (f.run.run p) (g.run.run q)

namespace Parallel

variable {R : α → β → Prop} {S : γ → δ → Prop} {f : Lower α} {g : Lower β}

theorem pure {a : α} {b : β} (h : R a b) : Parallel (pure a) (pure b) R := fun _ _ hpq => .ok h hpq

theorem throw (e e' : CompileError) : Parallel (throw e : Lower α) (throw e' : Lower β) R :=
  fun _ _ _ => .error

theorem throw_bind (e e' : CompileError) {k : γ → Lower α} {l : δ → Lower β} :
    Parallel (MonadExcept.throw e >>= k) (MonadExcept.throw e' >>= l) R :=
  fun _ _ _ => .error

theorem bind {k : α → Lower γ} {l : β → Lower δ} (h : Parallel f g R)
    (hk : ∀ a b, R a b → Parallel (k a) (l b) S) : Parallel (f >>= k) (g >>= l) S := by
  intro p q hpq
  have hfirst := h p q hpq
  rw [run_bind, run_bind]
  generalize f.run.run p = x, g.run.run q = y at hfirst
  cases hfirst with
  | error => exact .error
  | ok hr hsame => exact hk _ _ hr _ _ hsame

theorem map {k : α → γ} {l : β → δ} (h : Parallel f g fun a b => S (k a) (l b)) :
    Parallel (k <$> f) (l <$> g) S := by
  rw [map_eq_pure_bind, map_eq_pure_bind]
  exact h.bind fun _ _ hr => .pure hr

theorem imp {T : α → β → Prop} (h : Parallel f g R) (hRT : ∀ a b, R a b → T a b) :
    Parallel f g T := by
  intro p q hpq
  have hfg := h p q hpq
  generalize f.run.run p = x, g.run.run q = y at hfg
  cases hfg with
  | error => exact .error
  | ok hr hsame => exact .ok (hRT _ _ hr) hsame

theorem symbol (name : String) : Parallel (symbol name) (symbol name) Eq := by
  rintro ⟨strings, symbols, warnings⟩ ⟨_, _, warnings'⟩ ⟨rfl, rfl⟩
  show Both _ (Lower.symbol name ⟨strings, symbols, warnings⟩)
    (Lower.symbol name ⟨strings, symbols, warnings'⟩)
  simp only [Lower.symbol]
  rcases symbols.intern name with ⟨e | i, t⟩
  · exact .error
  · exact .ok rfl ⟨rfl, rfl⟩

theorem string (value : String) : Parallel (string value) (string value) Eq := by
  rintro ⟨strings, symbols, warnings⟩ ⟨_, _, warnings'⟩ ⟨rfl, rfl⟩
  show Both _ (Lower.string value ⟨strings, symbols, warnings⟩)
    (Lower.string value ⟨strings, symbols, warnings'⟩)
  simp only [Lower.string]
  rcases strings.intern value with ⟨e | i, t⟩
  · exact .error
  · exact .ok rfl ⟨rfl, rfl⟩

theorem warn (d d' : Diagnostic) : Parallel (warn d) (warn d') Eq :=
  fun _ _ hpq => .ok rfl ⟨hpq.strings, hpq.symbols⟩

end Parallel

end Lower

/-! Tokens and expressions without places. -/

def Relocation.nowhere : Relocation := ⟨fun _ => .synthetic, fun _ _ => rfl⟩

namespace Expr

mutual

theorem moved_nowhere : (e : Expr) → e.moved .nowhere = e.bare
  | .literal _ | .variable _ | .pending _ | .construct _ none _ => rfl
  | .grouping e => by rw [moved, bare, moved_nowhere e]
  | .unary op e _ => by
    rw [moved, bare, moved_nowhere e]
    rfl
  | .binary l op r => by
    rw [moved, bare, moved_nowhere l, moved_nowhere r]
    rfl
  | .index a i _ => by
    rw [moved, bare, moved_nowhere a, moved_nowhere i]
    rfl
  | .array es _ => by
    rw [moved, bare, movedAll_nowhere es]
    rfl
  | .call f es _ => by
    rw [moved, bare, moved_nowhere f, movedAll_nowhere es]
    rfl
  | .construct _ (some es) _ => by
    rw [moved, bare, movedAll_nowhere es]
    rfl

theorem movedAll_nowhere : (es : List Expr) → movedAll .nowhere es = bareAll es
  | [] => rfl
  | e :: es => by rw [movedAll, bareAll, moved_nowhere e, movedAll_nowhere es]

end

end Expr

theorem parallel_steps : Steps .nowhere fun f g => Parallel f g Eq where
  pure _ := .pure rfl
  throw _ := .throw _ _
  bind hf hg := hf.bind fun a _ hab => hab ▸ hg a
  symbol := .symbol
  string := .string
  warn _ _ := .warn _ _

theorem readGlobal_bare {env : Env} (t : Token) :
    Parallel (readGlobal env t) (readGlobal env t.bare) Eq :=
  readGlobal_moved parallel_steps t

section

variable {m : Type → Type} [Monad m] [MonadLiftT Lower m] [MonadExcept CompileError m]
  {Q : {α : Type} → m α → m α → Prop}
  (h : Walks (m := m) (n := m) .nowhere (fun f g => Parallel f g Eq) Q) {env : Env}
  {r r' : Token → m Code} {a a' : Token → m Slot}
include h

theorem exprOver_bare (hread : ∀ t, Q (r t) (r' t.bare)) (e : Expr) :
    Q (exprOver env r e) (exprOver env r' e.bare) := by
  have hexpr : Q (exprOver env r e) (exprOver env r' (e.moved .nowhere)) :=
    exprOver_moved h hread e
  rwa [e.moved_nowhere] at hexpr

theorem assignOver_bare (hread : ∀ t, Q (r t) (r' t.bare)) (hassigned : ∀ t, Q (a t) (a' t.bare))
    (target value : Expr) :
    Q (assignOver env r a target value) (assignOver env r' a' target.bare value.bare) := by
  have hassign : Q (assignOver env r a target value)
      (assignOver env r' a' (target.moved .nowhere) (value.moved .nowhere)) :=
    assignOver_moved h hread hassigned target value
  rwa [target.moved_nowhere, value.moved_nowhere] at hassign

end

/-! Names that mean the same. -/

theorem parallel_walks :
    Walks (m := Lower) (n := Lower) .nowhere (fun f g => Parallel f g Eq)
      fun f g => Parallel f g Eq where
  steps := parallel_steps
  pure _ := .pure rfl
  lift h := h
  throw _ := .throw _ _
  throw_bind _ := .throw_bind _ _
  bind h hk := h.bind fun a _ hab => hab ▸ hk a

structure Meaning.Like (a b : Meaning) : Prop where
  slot? : a.slot? = b.slot?
  read : Parallel a.read b.read Eq

def Meanings.Like (ρ σ : Meanings) : Prop :=
  List.Forall₂ (List.Forall₂ fun x y => x.1 = y.1 ∧ x.2.Like y.2) ρ σ

structure Lexicon.Like (ρ σ : Lexicon) : Prop where
  names : ρ.names.Like σ.names
  slots : ρ.slots = σ.slots
  hidden : ρ.hidden = σ.hidden

namespace Meanings

variable {env : Env} {ρ σ : Meanings}

theorem lookup_like {f g : List (String × Meaning)}
    (h : List.Forall₂ (fun x y => x.1 = y.1 ∧ x.2.Like y.2) f g) (name : String) :
    Option.Rel Meaning.Like (f.lookup name) (g.lookup name) := by
  induction h with
  | nil => exact .none
  | @cons x y f g hxy _ ih =>
    obtain ⟨x, a⟩ := x
    obtain ⟨y, b⟩ := y
    obtain ⟨rfl, hab⟩ := hxy
    simp only [List.lookup_cons]
    cases name == x with
    | true => exact .some hab
    | false => exact ih

theorem Like.find? (h : ρ.Like σ) (name : String) :
    Option.Rel Meaning.Like (ρ.find? name) (σ.find? name) := by
  unfold Meanings.find?
  induction h with
  | nil => exact .none
  | @cons f g ρ σ hfg _ ih =>
    simp only [List.findSome?_cons]
    have hlook := lookup_like hfg name
    generalize f.lookup name = x, g.lookup name = y at hlook
    cases hlook with
    | none => exact ih
    | some hab => exact .some hab

theorem Like.declares (h : ρ.Like σ) (name : String) : ρ.declares name = σ.declares name := by
  cases h with
  | nil => rfl
  | @cons f g _ _ hfg _ =>
    have hlook := lookup_like hfg name
    show (f.lookup name).isSome = (g.lookup name).isSome
    generalize f.lookup name = x, g.lookup name = y at hlook
    cases hlook <;> rfl

theorem Like.insert (h : ρ.Like σ) (name : String) {a b : Meaning} (hab : a.Like b) :
    (ρ.insert name a).Like (σ.insert name b) := by
  cases h with
  | nil => exact .nil
  | cons hfg hrest => exact .cons (.cons ⟨rfl, hab⟩ hfg) hrest

theorem Like.read (h : ρ.Like σ) (t : Token) :
    Parallel (ρ.read env t) (σ.read env t.bare) Eq := by
  unfold Meanings.read
  have hfind := h.find? t.text
  rw [show t.bare.text = t.text from rfl]
  generalize ρ.find? t.text = x, σ.find? t.text = y at hfind
  cases hfind with
  | none => exact .bind (readGlobal_bare t) fun _ _ hs => .pure (by rw [hs])
  | some hab => exact hab.read

theorem Like.assigned (h : ρ.Like σ) (t : Token) :
    Parallel (ρ.assigned env t) (σ.assigned env t.bare) Eq := by
  unfold Meanings.assigned
  have hfind := h.find? t.text
  rw [show t.bare.text = t.text from rfl]
  generalize ρ.find? t.text = x, σ.find? t.text = y at hfind
  cases hfind with
  | none => exact readGlobal_bare t
  | @some a b hab =>
    obtain ⟨slot, read⟩ := a
    obtain ⟨_, read'⟩ := b
    obtain ⟨rfl, -⟩ := hab
    cases slot with
    | none => exact .throw _ _
    | some i => exact .pure rfl

theorem like_ofElement {read read' : Token → Lower Code}
    (hread : ∀ t, Parallel (read t) (read' t.bare) Eq) (collection : Expr) (index : UInt16) :
    (Meaning.ofElement env read collection index).Like
      (.ofElement env read' collection.bare index) := by
  refine ⟨rfl, ?_⟩
  simp only [Meaning.ofElement]
  have hexpr : Parallel (exprOver env read collection) (exprOver env read' collection.bare) Eq :=
    exprOver_bare parallel_walks hread collection
  rw [exprOver_lower, exprOver_lower] at hexpr
  exact hexpr.bind fun _ _ hcode => .pure (by rw [hcode])

end Meanings

def Naming.Like {α : Type} (x y : Naming α) : Prop :=
  ∀ ρ σ : Lexicon, ρ.Like σ → Parallel (x ρ) (y σ) fun r s => r.1 = s.1 ∧ r.2.Like s.2

theorem naming_walks :
    Walks (m := Naming) (n := Naming) .nowhere (fun f g => Parallel f g Eq) Naming.Like where
  steps := parallel_steps
  pure a ρ σ h := .pure ⟨rfl, h⟩
  lift hfg ρ σ h := hfg.bind fun _ _ hab => .pure ⟨hab, h⟩
  throw _ _ _ _ := .throw _ _
  throw_bind _ _ _ _ := fun _ _ _ => .error
  bind hx hy ρ σ h := (hx ρ σ h).bind fun r s hrs => by
    obtain ⟨a, ρ'⟩ := r
    obtain ⟨b, σ'⟩ := s
    obtain ⟨rfl, hlike⟩ := hrs
    exact hy a ρ' σ' hlike

namespace Naming.Like

variable {α β : Type} {x y : Naming α} {env : Env}

theorem map (h : Like x y) (g : α → β) : Like (g <$> x) (g <$> y) := by
  rw [map_eq_pure_bind, map_eq_pure_bind]
  exact naming_walks.bind h fun a => naming_walks.pure (g a)

open Lexicon

theorem read (t : Token) : Like ((keeper env).read t) ((keeper env).read t.bare) :=
  fun _ _ h => .map ((h.names.read t).imp fun _ _ hab => ⟨hab, h⟩)

theorem assigned (t : Token) : Like ((keeper env).assigned t) ((keeper env).assigned t.bare) :=
  fun _ _ h => .map ((h.names.assigned t).imp fun _ _ hab => ⟨hab, h⟩)

theorem withSlot {ρ σ : Lexicon} (h : ρ.Like σ) (name : String) :
    (ρ.withSlot name).Like (σ.withSlot name) := by
  have hslot : ρ.nextSlot = σ.nextSlot := by rw [nextSlot, nextSlot, h.slots]
  have hmeaning : (Meaning.ofSlot ρ.nextSlot).Like (.ofSlot σ.nextSlot) := by
    rw [hslot]
    exact ⟨rfl, .pure rfl⟩
  exact ⟨h.names.insert name hmeaning, congrArg (· + 1) h.slots, h.hidden⟩

theorem declare (t : Token) : Like ((keeper env).declare t) ((keeper env).declare t.bare) := by
  intro ρ σ h
  simp only [keeper, h.names.declares, show t.bare.text = t.text from rfl]
  split
  · exact .throw _ _
  · exact .pure ⟨by rw [nextSlot, nextSlot, h.slots], withSlot h t.text⟩

theorem hidden (purpose : String) :
    Like ((keeper env).hidden purpose) ((keeper env).hidden purpose) := by
  intro ρ σ h
  simp only [keeper, h.hidden]
  have hslot := withSlot h ("$" ++ purpose ++ toString (σ.hidden + 1))
  exact .pure ⟨by rw [nextSlot, nextSlot, h.slots], hslot.names, hslot.slots, rfl⟩

theorem element (name : Token) (collection : Expr) (index : UInt16) :
    Like ((keeper env).element name collection index)
      ((keeper env).element name.bare collection.bare index) := by
  rintro ⟨names, slots, hidden⟩ ⟨names', _, _⟩ ⟨h, rfl, rfl⟩
  cases h with
  | nil => exact .throw _ _
  | @cons f g rest rest' hfg hrest =>
    have hnames : Meanings.Like (f :: rest) (g :: rest') := .cons hfg hrest
    simp only [keeper, List.tail_cons, hnames.declares, show name.bare.text = name.text from rfl]
    cases hrest with
    | nil => exact .throw _ _
    | cons hfg' hrest' =>
      dsimp only
      split
      · exact .throw _ _
      · have houter : Meanings.Like (_ :: _) (_ :: _) := .cons hfg' hrest'
        exact .pure ⟨trivial,
          hnames.insert _ (Meanings.like_ofElement houter.read collection index), rfl, rfl⟩

theorem frame (h : Like x y) : Like ((keeper env).frame x) ((keeper env).frame y) := by
  intro ρ σ hρ
  simp only [keeper]
  have hinside : Lexicon.Like { ρ with names := [] :: ρ.names } { σ with names := [] :: σ.names } :=
    ⟨.cons .nil hρ.names, hρ.slots, hρ.hidden⟩
  exact (h _ _ hinside).bind fun r s hrs => .pure ⟨hrs.1, hρ.names, hrs.2.slots, hrs.2.hidden⟩

theorem slots : Like (keeper env).slots (keeper env).slots := fun _ _ h => .pure ⟨h.slots, h⟩

end Naming.Like

/-! Statements and bodies. -/

section

variable {env : Env}

open Lexicon

theorem Branch.forward_bare (code : Code) (span span' : Span) :
    Parallel (Lower.ofExcept (Branch.forward code span))
      (Lower.ofExcept (Branch.forward code span')) Eq := by
  unfold Branch.forward
  cases Branch.distance? code.size with
  | none => exact .throw _ _
  | some d => exact .pure rfl

theorem Branch.backward_bare (code : Code) (span span' : Span) :
    Parallel (Lower.ofExcept (Branch.backward code span))
      (Lower.ofExcept (Branch.backward code span')) Eq := by
  unfold Branch.backward
  cases Branch.distance? (code.size + Branch.size) with
  | none => exact .throw _ _
  | some d => exact .pure rfl

theorem loopCode_bare (test body : Code) (span span' : Span) :
    Parallel (Lower.ofExcept (loopCode test body span))
      (Lower.ofExcept (loopCode test body span')) Eq := by
  unfold loopCode Branch.backward
  cases Branch.distance? _ with
  | none => exact .throw _ _
  | some back =>
    simp only [bind, Except.bind]
    unfold Branch.forward
    cases Branch.distance? _ with
    | none => exact .throw _ _
    | some out => exact .pure rfl

theorem Draft.finish_bare (d : Draft) (b : Bool) (span span' : Span) :
    Parallel (Lower.ofExcept (d.finish b span)) (Lower.ofExcept (d.finish b span')) Eq := by
  unfold Draft.finish
  split
  · exact .throw _ _
  · exact .pure rfl

theorem Stmt.withMark_eq (hlines : env.lineNumbers = false) (s : Stmt) :
    s.withMark env = fun code => code := by
  funext code
  rw [withMark, lineMark, hlines]
  rfl

theorem expr_bare (e : Expr) :
    Naming.Like (exprOver env (keeper env).read e) (exprOver env (keeper env).read e.bare) :=
  exprOver_bare naming_walks Naming.Like.read e

mutual

theorem stmtOver_bare (hlines : env.lineNumbers = false) : (s : Stmt) →
    Naming.Like (stmtOver (keeper env) env s) (stmtOver (keeper env) env s.bare)
  | .block ⟨body, _⟩ => by
    simp only [Stmt.bare, Stmt.rebuild, stmtOver]
    exact Naming.Like.frame (stmtsOver_bare hlines body [])
  | .expr e => by
    simp only [Stmt.bare, Stmt.rebuild, stmtOver]
    exact naming_walks.bind (expr_bare e) fun _ => naming_walks.pure _
  | .var name init => by
    simp only [Stmt.bare, Stmt.rebuild, stmtOver]
    cases init with
    | none =>
      exact naming_walks.bind (naming_walks.pure _) fun _ =>
        naming_walks.bind (Naming.Like.declare name) fun _ => naming_walks.pure _
    | some e =>
      exact naming_walks.bind (expr_bare e) fun _ =>
        naming_walks.bind (Naming.Like.declare name) fun _ => naming_walks.pure _
  | .assign target value => by
    simp only [Stmt.bare, Stmt.rebuild, stmtOver]
    exact assignOver_bare naming_walks Naming.Like.read Naming.Like.assigned target value
  | .return_ none _ => by
    simp only [Stmt.bare, Stmt.rebuild, stmtOver, Option.map_none]
    exact naming_walks.pure _
  | .return_ (some e) _ => by
    simp only [Stmt.bare, Stmt.rebuild, stmtOver, Option.map_some]
    exact naming_walks.bind (expr_bare e) fun _ => naming_walks.pure _
  | .if_ none body none _ | .if_ none body (some arm) _ => by
    have hbody := stmtOver_bare hlines body
    simp only [Stmt.bare, Stmt.rebuild, stmtOver, Stmt.withMark_eq hlines, id_map',
      Option.map_none]
    exact hbody
  | .if_ (some c) body none span => by
    have hbody := stmtOver_bare hlines body
    simp only [Stmt.bare, Stmt.rebuild, stmtOver, Stmt.withMark_eq hlines, id_map',
      Option.map_some]
    exact naming_walks.bind (expr_bare c) fun _ => naming_walks.bind hbody fun _ =>
      naming_walks.bind (naming_walks.lift (Branch.forward_bare _ _ _)) fun _ =>
        naming_walks.pure _
  | .if_ (some c) body (some arm) span => by
    have hbody := stmtOver_bare hlines body
    have harm := stmtOver_bare hlines arm
    simp only [Stmt.bare, Stmt.rebuild, stmtOver, Stmt.withMark_eq hlines, id_map',
      Option.map_some]
    exact naming_walks.bind (expr_bare c) fun _ => naming_walks.bind hbody fun _ =>
      naming_walks.bind (naming_walks.lift (Branch.forward_bare _ _ _)) fun _ =>
        naming_walks.bind harm fun _ =>
          naming_walks.bind (naming_walks.lift (Branch.forward_bare _ _ _)) fun _ =>
            naming_walks.pure _
  | .while_ c body => by
    have hbody := stmtOver_bare hlines body
    simp only [Stmt.bare, Stmt.rebuild, stmtOver, Stmt.withMark_eq hlines, id_map']
    exact naming_walks.bind (expr_bare c) fun _ => naming_walks.bind hbody fun _ =>
      naming_walks.lift (loopCode_bare _ _ _ _)
  | .doWhile body c => by
    have hbody := stmtOver_bare hlines body
    simp only [Stmt.bare, Stmt.rebuild, stmtOver, Stmt.withMark_eq hlines, id_map']
    exact naming_walks.bind hbody fun _ => naming_walks.bind (expr_bare c) fun _ =>
      naming_walks.bind (naming_walks.lift (Branch.backward_bare _ _ _)) fun _ =>
        naming_walks.pure _
  | .foreach element collection body => by
    have hbody := stmtOver_bare hlines body
    simp only [Stmt.bare, Stmt.rebuild, stmtOver, Stmt.withMark_eq hlines, id_map']
    exact Naming.Like.frame (naming_walks.bind (Naming.Like.hidden "index") fun _ =>
      naming_walks.bind (Naming.Like.hidden "max") fun _ =>
        naming_walks.bind (expr_bare collection) fun _ =>
          naming_walks.bind (Naming.Like.element _ _ _) fun _ =>
            naming_walks.bind hbody fun _ =>
              naming_walks.bind (naming_walks.lift (loopCode_bare _ _ _ _)) fun _ =>
                naming_walks.pure _)
  | .classDecl _ | .property _ | .subroutine _ | .global _ => by
    simp only [Stmt.bare, Stmt.rebuild, stmtOver]
    exact naming_walks.throw (.placed trivial)
termination_by s => sizeOf s
decreasing_by all_goals simp +arith

theorem stmtsOver_bare (hlines : env.lineNumbers = false) : (ss : List Stmt) → (acc : Code) →
    Naming.Like (stmtsOver (keeper env) env acc ss)
      (stmtsOver (keeper env) env acc
        (Stmt.rebuildAll Expr.bare Token.bare (fun _ => .synthetic) ss))
  | [], acc => by
    simp only [Stmt.rebuildAll, stmtsOver]
    exact naming_walks.pure _
  | s :: ss, acc => by
    have hs := stmtOver_bare hlines s
    simp only [Stmt.rebuildAll, stmtsOver, Stmt.withMark_eq hlines, id_map']
    exact naming_walks.bind hs fun _ => stmtsOver_bare hlines ss _
termination_by ss => sizeOf ss
decreasing_by all_goals simp +arith

end

theorem declareAll_bare (ps : List Token) :
    Naming.Like ((keeper env).declareAll ps) ((keeper env).declareAll (ps.map Token.bare)) := by
  induction ps with
  | nil => exact naming_walks.pure ()
  | cons p ps ih => exact naming_walks.bind (Naming.Like.declare p) fun _ => ih

theorem start_bare (ps : List Token) (isMethod : Bool) :
    Naming.Like ((keeper env).start ps isMethod)
      ((keeper env).start (ps.map Token.bare) isMethod) := by
  have hseed : Naming.Like ((keeper env).seed isMethod) ((keeper env).seed isMethod) := by
    cases isMethod with
    | false => exact naming_walks.pure ()
    | true => exact (Naming.Like.hidden "this").map _
  cases ps with
  | nil => exact hseed
  | cons p ps =>
    simp only [Keeper.start, List.map_cons, List.length_cons, List.length_map]
    split
    · exact naming_walks.throw (.placed trivial)
    · exact naming_walks.bind hseed fun _ => declareAll_bare (p :: ps)

theorem endsInReturn_bare (ss : List Stmt) :
    (ss.map Stmt.bare).getLast?.any Stmt.isReturn = ss.getLast?.any Stmt.isReturn := by
  rw [List.getLast?_map, Option.any_map]
  exact congrArg (Option.any · _) (funext fun s => Stmt.isReturn_rebuild _ _ _ s)

theorem subroutineOver_bare (hlines : env.lineNumbers = false) (s : Subroutine) :
    Naming.Like (subroutineOver (keeper env) env s) (subroutineOver (keeper env) env s.bare) := by
  have hbody := stmtsOver_bare hlines s.body.statements []
  rw [Stmt.rebuildAll_eq] at hbody
  have hstart : Naming.Like ((keeper env).start s.parameters env.owner.isSome) _ :=
    start_bare s.parameters env.owner.isSome
  have hend := endsInReturn_bare s.body.statements
  unfold Stmt.bare at hend
  simp only [subroutineOver, SubroutineOf.bare, SubroutineOf.rebuild, List.length_map, hend]
  exact naming_walks.bind hstart fun _ => naming_walks.bind hbody fun code =>
    naming_walks.bind Naming.Like.slots fun _ =>
      naming_walks.lift (Draft.finish_bare _ _ _ _)

/-- Without marks of lines, the code of a body is that of the body without places. -/
theorem lowerSubroutine_bare (hlines : env.lineNumbers = false) (s : Subroutine) :
    Parallel (lowerSubroutine env s) (lowerSubroutine env s.bare) Eq := by
  rw [← lexicalSubroutine_eq, ← lexicalSubroutine_eq]
  have hstart : Lexicon.Like {} {} := ⟨.cons .nil .nil, rfl, rfl⟩
  exact .map ((subroutineOver_bare hlines s _ _ hstart).imp fun _ _ hab => hab.1)

end

end Lss
