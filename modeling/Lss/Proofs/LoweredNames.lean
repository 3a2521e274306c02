import Lss.Proofs.Compared
import Lss.Proofs.Contract
import Lss.Proofs.DrawnUnit

/-!
# Names in lowered code

Code that is lowered from a tree with proper names refers to names that a program can have and to
finite numbers, and its frames bind only the names that the tree introduces, beside hidden ones.
-/
namespace Lss

namespace Code

@[simp] theorem finite_append {a b : Code} : Finite (a ++ b) ↔ Finite a ∧ Finite b := by
  simp only [Finite, List.mem_append]
  constructor
  · intro h
    exact ⟨fun x hx => h x (.inl hx), fun x hx => h x (.inr hx)⟩
  · rintro ⟨ha, hb⟩ x (hx | hx)
    · exact ha x hx
    · exact hb x hx

@[simp] theorem finite_nil : Finite [] := nofun

@[simp] theorem finite_cons {i : Instruction} {code : Code} :
    Finite (i :: code) ↔ (∀ x, i = .pushFloat x → x.isFinite) ∧ Finite code := by
  simp only [Finite, List.mem_cons]
  constructor
  · intro h
    exact ⟨fun x hx => h x (.inl hx.symm), fun x hx => h x (.inr hx)⟩
  · rintro ⟨hi, hcode⟩ x (hx | hx)
    · exact hi x hx.symm
    · exact hcode x hx

@[simp] theorem finite_reverse {code : Code} : Finite code.reverse ↔ Finite code := by
  simp only [Finite, List.mem_reverse]

end Code

/-- What holds of all names of a table stays true when one of the kind is added. -/
theorem NameTable.intern_all {P : String → Prop} {t : NameTable} (ht : ∀ x ∈ t.toList, P x)
    {name : String} (hname : P name) : ∀ x ∈ (t.intern name).2.toList, P x := by
  unfold intern
  split
  · exact ht
  · split
    · rw [toList_push]
      intro x hx
      rcases List.mem_append.mp hx with hx | hx
      · exact ht x hx
      · rw [List.mem_singleton.mp hx]
        exact hname
    · exact ht

def Pool.Named (p : Pool) : Prop := ∀ name ∈ p.symbols.toList, IsName name

namespace Lower

variable {α β : Type} {H : Prop} {Q : α → Prop}

/-- A run from a pool of names leaves a pool of names, given `H`, and a result is as `Q` says. -/
def Writes (H : Prop) (f : Lower α) (Q : α → Prop) : Prop :=
  ∀ p : Pool, (H → p.Named → (f.run.run p).2.Named) ∧ ∀ a, (f.run.run p).1 = .ok a → Q a

theorem Writes.pure {a : α} (h : Q a) : Writes H (pure a) Q := by
  intro p
  refine ⟨fun _ hp => hp, fun b hb => ?_⟩
  cases hb
  exact h

theorem Writes.throw (e : CompileError) : Writes H (throw e) Q := by
  intro p
  exact ⟨fun _ hp => hp, nofun⟩

theorem Writes.bind {f : Lower α} {g : α → Lower β} {R : β → Prop} (hf : Writes H f Q)
    (hg : ∀ a, Q a → Writes H (g a) R) : Writes H (f >>= g) R := by
  intro p
  obtain ⟨hq, ha⟩ := hf p
  rw [run_bind]
  generalize f.run.run p = r at hq ha
  obtain ⟨e | a, q⟩ := r
  · exact ⟨hq, nofun⟩
  · obtain ⟨hr, hb⟩ := hg a (ha a rfl) q
    exact ⟨fun h hp => hr h (hq h hp), hb⟩

theorem Writes.imp {R : α → Prop} {f : Lower α} (hf : Writes H f Q) (h : ∀ a, Q a → R a) :
    Writes H f R := by
  intro p
  obtain ⟨hq, ha⟩ := hf p
  exact ⟨hq, fun a hok => h a (ha a hok)⟩

theorem Writes.map {f : Lower α} {g : α → β} {R : β → Prop} (hf : Writes H f fun a => R (g a)) :
    Writes H (g <$> f) R := by
  rw [map_eq_pure_bind]
  exact hf.bind fun a h => .pure h

theorem Writes.ofExcept (f : Except CompileError α) :
    Writes H (ofExcept f) fun a => f = .ok a := by
  cases f with
  | ok a => exact .pure rfl
  | error e => exact .throw e

theorem writes_symbol {name : String} (h : H → IsName name) :
    Writes H (symbol name) fun _ => True := by
  rintro ⟨strings, symbols, warnings⟩
  refine ⟨fun hname hp => ?_, fun _ _ => trivial⟩
  have hnamed : ∀ x ∈ (symbols.intern name).2.toList, IsName x :=
    NameTable.intern_all hp (h hname)
  have hrun : ((symbol name).run.run ⟨strings, symbols, warnings⟩).2.symbols
      = (symbols.intern name).2 := by
    show (Lower.symbol name ⟨strings, symbols, warnings⟩).2.symbols = _
    rcases hi : symbols.intern name with ⟨i | e, grown⟩ <;> simp only [Lower.symbol, hi]
  unfold Pool.Named
  rwa [hrun]

theorem writes_string (value : String) : Writes H (string value) fun _ => True := by
  rintro ⟨strings, symbols, warnings⟩
  refine ⟨fun _ hp => ?_, fun _ _ => trivial⟩
  have hrun : ((string value).run.run ⟨strings, symbols, warnings⟩).2.symbols = symbols := by
    show (Lower.string value ⟨strings, symbols, warnings⟩).2.symbols = _
    rcases hi : strings.intern value with ⟨i | e, grown⟩ <;> simp only [Lower.string, hi]
  unfold Pool.Named
  rwa [hrun]

theorem writes_warn (d : Diagnostic) : Writes H (warn d) fun _ => True :=
  fun _ => ⟨fun _ hp => hp, fun _ _ => trivial⟩

end Lower

/-! Expressions. -/

open Lower

/-- Runs that intern names only. The second run is of no consequence. -/
def Lower.Comparison.writing (H : Prop) : Comparison where
  World := Unit
  Later _ _ := True
  Rel _ f _ R := Writes H f fun a => ∃ b, R () a b
  Calm _ := True
  Lenient := True
  Name name := H → IsName name
  Symbol _ _ _ := True
  Text _ _ _ := True
  composes := composes_trivial
  later_trans _ _ := trivial
  symbol_later _ _ := trivial
  pure h := .pure ⟨_, h⟩
  throw := .throw _
  miss _ := .throw _
  bind h _ hk := h.bind fun a hr => hr.elim fun b hr => hk () a b trivial hr
  symbol hname := (writes_symbol hname).imp fun s _ => ⟨s, trivial⟩
  string := (writes_string _).imp fun s _ => ⟨s, trivial⟩
  warn := (writes_warn _).imp fun _ _ => ⟨(), trivial⟩

def Declared.Named (d : Declared) : Prop := ∀ name ∈ d.classes, IsName name

namespace Lower.Comparison

variable {H : Prop}

theorem names_writing {e : Expr} (h : e.Names Token.Proper) : e.Names (writing H).Proper :=
  h.imp fun _ ht hk _ => ht hk

theorem environments_writing (env : Env) : (writing env.Named).Environments env env :=
  .refl fun name hname h => h name hname

theorem codes_finite (env : Env) : (writing H).Codes env fun _ _ x _ => Code.Finite x where
  later h _ := h
  nil := Code.finite_nil
  append ha hb := Code.finite_append.mpr ⟨ha, hb⟩
  apply h _ hij := Code.finite_append.mpr ⟨h, Code.finite_cons.mpr ⟨hij.finite, Code.finite_nil⟩⟩
  this _ := by simp
  dup h := by simp [h]
  construct h _ := by simp [h]

end Lower.Comparison

/-! Names of a subroutine. -/

def Variable.Proper : Variable → Prop
  | .slot _ => True
  | .element collection _ _ => collection.Names Token.Proper

namespace Scopes

variable {N : String → Prop} {s u : Scopes} {name : String} {v : Variable}

/-- Frames bind names that `N` allows and hidden ones, and the collections of elements have
proper names. -/
def Binds (N : String → Prop) (s : Scopes) : Prop :=
  ∀ f ∈ s.frames, ∀ (name : String) (v : Variable), f.bindings[name]? = some v →
    (N name ∨ name.toList.head? = some '$') ∧ v.Proper

theorem Binds.enter (h : s.Binds N) : s.enter.Binds N := by
  intro f hf name v hv
  rcases Array.mem_push.mp hf with hf | rfl
  · exact h f hf name v hv
  · simp at hv

theorem Binds.exit (h : s.Binds N) : s.exit.Binds N := h

theorem Binds.insert (h : s.Binds N) (hname : N name ∨ name.toList.head? = some '$')
    (hv : v.Proper) : (s.insert name v).Binds N := by
  unfold Scopes.insert
  split
  · exact h
  · next j _ =>
    intro f hf other w hw
    obtain ⟨k, hk, hkf⟩ := Array.mem_iff_getElem.mp hf
    rw [Array.getElem_modify] at hkf
    split at hkf
    · subst hkf
      simp only [Std.TreeMap.getElem?_insert] at hw
      split at hw
      · next hc =>
        cases hw
        have := Std.LawfulEqCmp.eq_of_compare hc
        subst this
        exact ⟨hname, hv⟩
      · exact h _ (Array.getElem_mem _) other w hw
    · subst hkf
      exact h _ (Array.getElem_mem _) other w hw

theorem Binds.declare (h : s.Binds N) (hname : N name) {i : UInt16}
    (hd : s.declare name = some (i, u)) : u.Binds N := by
  unfold Scopes.declare at hd
  split at hd
  · cases hd
  · cases hd
    have hs : ({ s with slotCount := s.slotCount + 1 } : Scopes).Binds N := h
    exact hs.insert (.inl hname) trivial

theorem Binds.declareHidden (h : s.Binds N) (purpose : String) :
    (s.declareHidden purpose).2.Binds N := by
  have hs : ({ s with slotCount := s.slotCount + 1, hidden := s.hidden + 1 } : Scopes).Binds N := h
  refine hs.insert (.inr ?_) trivial
  simp

theorem Binds.bind (h : s.Binds N) (hname : N name) (hv : v.Proper)
    (hb : s.bind name v = some u) : u.Binds N := by
  unfold Scopes.bind at hb
  split at hb
  · cases hb
  · cases hb
    exact h.insert (.inl hname) hv

theorem Binds.resolveFrom (h : s.Binds N) {frame : Nat} (hr : s.resolveFrom name frame = some v) :
    (N name ∨ name.toList.head? = some '$') ∧ v.Proper := by
  fun_induction Scopes.resolveFrom s name frame with
  | case1 => cases hr
  | case2 frame f hf w hw =>
    cases hr
    exact h f (Array.mem_of_getElem? hf) name v hw
  | case3 frame f hf hw q hp hlt ih => exact ih hr
  | case4 => cases hr
  | case5 => cases hr

end Scopes

section

variable {env : Env} {scopes : Scopes} {N : String → Prop}

theorem readGlobal_writes (t : Token) : Writes env.Named (readGlobal env t) fun _ => True := by
  unfold readGlobal
  split
  · exact .pure trivial
  · exact .throw _

theorem reads_writing (hs : scopes.Binds N) :
    (Comparison.writing env.Named).Reads (fun _ _ x _ => Code.Finite x) env env scopes where
  global t _ := (readGlobal_writes t).imp fun s _ => ⟨s, by simp⟩
  slot _ _ := by simp
  element _ hi := ⟨Comparison.names_writing (hs.resolveFrom hi).2, by simp⟩

/-- The code of an expression with proper names has finite numbers, and its symbols are names. -/
theorem lower_writes (hs : scopes.Binds N) {e : Expr} (he : e.Names Token.Proper) :
    Writes env.Named (lower env scopes e) Code.Finite := by
  have hwrites := lower_compares (Comparison.codes_finite env)
    (Comparison.environments_writing env) (reads_writing hs) (Comparison.names_writing he) ()
  exact Writes.imp hwrites fun _ hx => hx.elim fun _ hx => hx

theorem assignedSlot_writes (t : Token) :
    Writes env.Named (assignedSlot env scopes t) fun _ => True := by
  unfold assignedSlot
  split
  · exact .pure trivial
  · exact .throw _
  · exact readGlobal_writes t

theorem lowerAssign_writes (hs : scopes.Binds N) {target value : Expr}
    (ht : target.Names Token.Proper) (hv : value.Names Token.Proper) :
    Writes env.Named (lowerAssign env scopes target value) Code.Finite := by
  have hC := Comparison.codes_finite (H := env.Named) env
  have henv := Comparison.environments_writing env
  have hslots (t : Token) (w : Unit) : (Comparison.writing env.Named).Rel w
      (assignedSlot env scopes t) (assignedSlot env scopes t) fun _ s s' => s = s' ∧ True :=
    (assignedSlot_writes t).imp fun s _ => ⟨s, rfl, trivial⟩
  have hassign := assignOver_compares (A := fun _ _ => True) (w := ()) hC henv
    (readName_compares hC henv (reads_writing hs)) hslots (fun _ _ => trivial)
    (Comparison.names_writing ht) (Comparison.names_writing hv)
  rw [assignOver_lower] at hassign
  refine Writes.imp hassign ?_
  rintro _ ⟨-, x, y, i, j, rfl, -, hx, hi⟩
  refine Code.finite_append.mpr ⟨hx, Code.finite_cons.mpr ⟨?_, Code.finite_nil⟩⟩
  rintro v rfl
  cases hi.store

def Lowered.Kept (N : String → Prop) (r : Lowered) : Prop := r.1.Finite ∧ r.2.Binds N

theorem Lowered.Kept.marked {r : Lowered} (h : Lowered.Kept N r) (s : Stmt) :
    Lowered.Kept N (marked env s r) := by
  refine ⟨?_, h.2⟩
  unfold Lss.marked lineMark
  split <;> simp [h.1]

theorem loopCode_finite {test body code : Code} {span : Span} (ht : test.Finite)
    (hb : body.Finite) (h : loopCode test body span = .ok code) : code.Finite := by
  obtain ⟨back, -, h⟩ := bind_ok h
  obtain ⟨out, -, h⟩ := bind_ok h
  cases h
  simp [ht, hb]

theorem lowerVar_writes (hs : scopes.Binds N) {name : Token}
    {init : Option Expr} (hname : N name.text) (hinit : ∀ e ∈ init, e.Names Token.Proper) :
    Writes env.Named (lowerVar env scopes name init) (Lowered.Kept N) := by
  unfold lowerVar
  cases init with
  | none =>
    dsimp only
    split
    · next slot u hd => exact .pure ⟨by simp, hs.declare hname hd⟩
    · exact .throw _
  | some e =>
    refine .bind (lower_writes hs (hinit e rfl)) fun v hv => ?_
    split
    · next slot u hd => exact .pure ⟨by simp [hv], hs.declare hname hd⟩
    · exact .throw _

/-- What is lowered from a statement has finite numbers, its symbols are names, and its frames bind
only what the statement introduces. -/
def Stmt.Writes (env : Env) (N : String → Prop) (s : Stmt) : Prop :=
  ∀ scopes : Scopes, s.Names Token.Proper → (∀ b ∈ s.binders, N b.name) → scopes.Binds N →
    Lower.Writes env.Named (lowerStmt env scopes s) (Lowered.Kept N)

theorem Stmt.Writes.marked {s : Stmt} (h : s.Writes env N) (hs : s.Names Token.Proper)
    (hn : ∀ b ∈ s.binders, N b.name) (hscopes : scopes.Binds N) :
    Lower.Writes env.Named (marked env s <$> lowerStmt env scopes s) (Lowered.Kept N) :=
  .map ((h scopes hs hn hscopes).imp fun _ hr => hr.marked s)

section

variable {body : Stmt} (hbody : body.Writes env N)
include hbody

theorem ifElse_writes {arm : Stmt} (harm : arm.Writes env N) (test : Expr) (span : Span) :
    (Stmt.if_ (some test) body (some arm) span).Writes env N := by
  rintro scopes ⟨ht, hb, ha⟩ hn hs
  have hbn : ∀ b ∈ body.binders, N b.name := fun b hb => hn b (List.mem_append_left _ hb)
  have han : ∀ b ∈ arm.binders, N b.name := fun b hb => hn b (List.mem_append_right _ hb)
  simp only [lowerStmt]
  refine .bind (lower_writes hs ht) fun test htest => ?_
  refine .bind (hbody.marked hb hbn hs) ?_
  rintro ⟨code, u⟩ ⟨hcode, hu⟩
  refine .bind (.ofExcept _) fun skip _ => ?_
  refine .bind (harm.marked ha han hu) ?_
  rintro ⟨armCode, v⟩ ⟨harm, hv⟩
  exact .bind (.ofExcept _) fun skipArm _ => .pure ⟨by simp_all, hv⟩

theorem foreach_writes (element : Token) (collection : Expr) :
    (Stmt.foreach element collection body).Writes env N := by
  rintro scopes ⟨hc, hb⟩ hn hs
  have hbn : ∀ b ∈ body.binders, N b.name := fun b hb => hn b (List.mem_cons_of_mem _ hb)
  have hhidden := (hs.enter.declareHidden "index").declareHidden "max"
  simp only [lowerStmt]
  refine .bind (lower_writes hhidden hc) fun items hitems => ?_
  split
  · exact .throw _
  split
  · exact .throw _
  next u hbind =>
  have hu := hhidden.bind (hn _ List.mem_cons_self)
    (show Variable.Proper (.element collection _ _) from hc) hbind
  refine .bind (hbody.marked hb hbn hu) ?_
  rintro ⟨code, v⟩ ⟨hcode, hv⟩
  refine .bind (.ofExcept _) fun loop hloop => .pure ⟨?_, hv.exit⟩
  have hloop := loopCode_finite (by simp) (by simp_all) hloop
  simp [hitems, hloop]

end

mutual

theorem lowerStmt_writes : (s : Stmt) → s.Writes env N
  | .block ⟨body, span⟩, scopes, h, hn, hs => by
    simp only [lowerStmt]
    refine .bind (lowerStmts_writes body [] scopes.enter h hn Code.finite_nil hs.enter) ?_
    rintro ⟨code, u⟩ ⟨hcode, hu⟩
    exact .pure ⟨hcode, hu.exit⟩
  | .expr e, scopes, h, _, hs => by
    simp only [lowerStmt]
    exact .bind (lower_writes hs h) fun code hcode => .pure ⟨by simp [hcode], hs⟩
  | .var name none, scopes, h, hn, hs => by
    simp only [lowerStmt]
    exact lowerVar_writes hs (hn _ List.mem_cons_self) nofun
  | .var name (some e), scopes, h, hn, hs => by
    simp only [lowerStmt]
    exact lowerVar_writes hs (hn _ List.mem_cons_self) fun x hx => Option.some.inj hx ▸ h
  | .assign target value, scopes, h, _, hs => by
    simp only [lowerStmt]
    exact .bind (lowerAssign_writes hs h.1 h.2) fun code hcode => .pure ⟨hcode, hs⟩
  | .return_ none _, scopes, _, _, hs => by
    simp only [lowerStmt]
    exact .pure ⟨by simp, hs⟩
  | .return_ (some e) _, scopes, h, _, hs => by
    simp only [lowerStmt]
    exact .bind (lower_writes hs h) fun code hcode => .pure ⟨by simp [hcode], hs⟩
  | .if_ none body arm span, scopes, h, hn, hs => by
    have hbody : body.Names Token.Proper ∧ ∀ b ∈ body.binders, N b.name := by
      cases arm with
      | none => exact ⟨h, hn⟩
      | some arm => exact ⟨h.1, fun b hb => hn b (List.mem_append_left _ hb)⟩
    simp only [lowerStmt]
    exact (lowerStmt_writes body).marked hbody.1 hbody.2 hs
  | .if_ (some c) body none span, scopes, h, hn, hs => by
    obtain ⟨hc, hb⟩ := h
    simp only [lowerStmt]
    refine .bind (lower_writes hs hc) fun test htest => ?_
    refine .bind ((lowerStmt_writes body).marked hb hn hs) ?_
    rintro ⟨code, u⟩ ⟨hcode, hu⟩
    exact .bind (.ofExcept _) fun skip _ => .pure ⟨by simp_all, hu⟩
  | .if_ (some c) body (some arm) span, scopes, h, hn, hs =>
    ifElse_writes (lowerStmt_writes body) (lowerStmt_writes arm) c span scopes h hn hs
  | .while_ c body, scopes, h, hn, hs => by
    obtain ⟨hc, hb⟩ := h
    simp only [lowerStmt]
    refine .bind (lower_writes hs hc) fun test htest => ?_
    refine .bind ((lowerStmt_writes body).marked hb hn hs) ?_
    rintro ⟨code, u⟩ ⟨hcode, hu⟩
    exact .bind (.ofExcept _) fun loop hloop => .pure ⟨loopCode_finite htest hcode hloop, hu⟩
  | .doWhile body c, scopes, h, hn, hs => by
    obtain ⟨hc, hb⟩ := h
    simp only [lowerStmt]
    refine .bind ((lowerStmt_writes body).marked hb hn hs) ?_
    rintro ⟨code, u⟩ ⟨hcode, hu⟩
    refine .bind (lower_writes hu hc) fun test htest => ?_
    exact .bind (.ofExcept _) fun back _ => .pure ⟨by simp_all, hu⟩
  | .foreach element collection body, scopes, h, hn, hs =>
    foreach_writes (lowerStmt_writes body) element collection scopes h hn hs
  | .classDecl _, _, _, _, _ | .property _, _, _, _, _ | .subroutine _, _, _, _, _
  | .global _, _, _, _, _ => by
    simp only [lowerStmt]
    exact .throw _

theorem lowerStmts_writes : (ss : List Stmt) → (acc : Code) →
    (scopes : Scopes) → Stmt.AllNames Token.Proper ss → (∀ b ∈ Stmt.bindersAll ss, N b.name) →
    acc.Finite → scopes.Binds N → Writes env.Named (lowerStmts env acc scopes ss) (Lowered.Kept N)
  | [], acc, scopes, _, _, hacc, hs => by
    simp only [lowerStmts]
    exact .pure ⟨by simp [hacc], hs⟩
  | s :: ss, acc, scopes, h, hn, hacc, hs => by
    have hfirst : ∀ b ∈ s.binders, N b.name := fun b hb => hn b (List.mem_append_left _ hb)
    have hrest : ∀ b ∈ Stmt.bindersAll ss, N b.name := fun b hb => hn b (List.mem_append_right _ hb)
    simp only [lowerStmts]
    refine .bind ((lowerStmt_writes s).marked h.1 hfirst hs) ?_
    rintro ⟨code, u⟩ ⟨hcode, hu⟩
    exact lowerStmts_writes ss _ u h.2 hrest (by simp_all) hu

end

theorem Draft.declareAll_binds {ps : List Token} {s u : Scopes} (hs : s.Binds N)
    (hn : ∀ t ∈ ps, N t.text) (h : declareAll s ps = .ok u) : u.Binds N := by
  induction ps generalizing s with
  | nil =>
    cases h
    exact hs
  | cons p ps ih =>
    unfold declareAll at h
    split at h
    · next v hd =>
      have hv := hs.declare (hn p List.mem_cons_self) hd
      exact ih hv (fun t ht => hn t (List.mem_cons_of_mem p ht)) h
    · cases h

/-- At the start, parameters are bound, and the slot of the object under a hidden name. -/
theorem Draft.start_binds {name : String} {ps : List Token} {isMethod : Bool} {d : Draft}
    (hn : ∀ t ∈ ps, N t.text) (h : start name ps isMethod = .ok d) : d.scopes.Binds N := by
  have hempty : Scopes.Binds N {} := by
    intro f hf
    simp at hf
  have hseed : (start.seed isMethod).Binds N := by
    cases isMethod with
    | false => exact hempty.enter
    | true => exact hempty.enter.declareHidden "this"
  unfold start at h
  split at h
  · cases h
    exact hseed
  · split at h
    · cases h
    · split at h
      · next hall =>
        cases h
        exact declareAll_binds hseed hn hall
      · cases h

/-- The frames that lowering a body opens bind only what the subroutine introduces. -/
theorem lowerBody_writes {s : Subroutine} (hs : Stmt.AllNames Token.Proper s.body.statements)
    {d : Draft} {isMethod : Bool} (hd : Draft.start s.name.text s.parameters isMethod = .ok d) :
    Writes env.Named (lowerStmts env [] d.scopes s.body.statements)
      (Lowered.Kept fun name => ∃ b ∈ s.binders, b.name = name) := by
  refine lowerStmts_writes _ [] d.scopes hs (fun b hb => ?_) Code.finite_nil
    (Draft.start_binds (fun t ht => ?_) hd)
  · exact ⟨b, List.mem_append_right _ hb, rfl⟩
  · exact ⟨⟨.parameter, t.text⟩, List.mem_append_left _ (List.mem_map_of_mem ht), rfl⟩

theorem lowerSubroutine_writes {s : Subroutine}
    (hs : Stmt.AllNames Token.Proper s.body.statements) :
    Writes env.Named (lowerSubroutine env s) Code.Finite := by
  unfold lowerSubroutine
  refine .bind (.ofExcept _) fun d hd => .bind (lowerBody_writes hs hd) ?_
  rintro ⟨code, scopes⟩ ⟨hcode, -⟩
  refine (Writes.ofExcept _).imp fun out hout => ?_
  unfold Draft.finish at hout
  split at hout
  · cases hout
  · cases hout
    simp only [Draft.prologue, Draft.implicitReturn, Code.finite_append]
    refine ⟨⟨?_, hcode⟩, ?_⟩
    · constructor <;> split <;> simp
    · split <;> simp

end

end Lss
