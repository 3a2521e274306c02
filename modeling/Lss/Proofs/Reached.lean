import Lss.Proofs.Framed
import Lss.Proofs.Interned

/-!
# Where lowering comes to

Lowering a body comes to the statements inside it, one after another, with scopes and a pool for
each. Whatever it comes to inside the statement of a frame, frames below that one are as they were.
-/
namespace Lss

open Lower Scopes

inductive Stmt.Comes (env : Env) : Scopes → Pool → List Stmt → Scopes → Pool → Stmt → Prop
  | head {S p s ss} : Comes env S p (s :: ss) S p s
  | tail {S p s ss code U q T r t} : (lowerStmt env S s).run.run p = (.ok (code, U), q) →
      Comes env U q ss T r t → Comes env S p (s :: ss) T r t

inductive Stmt.Enters (env : Env) (S : Scopes) (p : Pool) : Stmt → Scopes → Pool → Stmt → Prop
  | block {body span T q t} : Comes env S.enter p body T q t →
      Enters env S p (.block ⟨body, span⟩) T q t
  | always {body arm span} : Enters env S p (.if_ none body arm span) S p body
  | if_ {c body arm span test q} : (lower env S c).run.run p = (.ok test, q) →
      Enters env S p (.if_ (some c) body arm span) S q body
  | else_ {c body arm span test q code U r} : (lower env S c).run.run p = (.ok test, q) →
      (lowerStmt env S body).run.run q = (.ok (code, U), r) →
      Enters env S p (.if_ (some c) body (some arm) span) U r arm
  | while_ {c body test q} : (lower env S c).run.run p = (.ok test, q) →
      Enters env S p (.while_ c body) S q body
  | doWhile {body c} : Enters env S p (.doWhile body c) S p body
  | foreach {element collection body index last frame inside inner items q} :
      S.Heads element collection index last frame inside inner →
      (lower env inside collection).run.run p = (.ok items, q) →
      Enters env S p (.foreach element collection body) inner q body

/-- Lowering a statement comes to itself and, in turn, to all that is inside. -/
inductive Stmt.Reaches (env : Env) : Scopes → Pool → Stmt → Scopes → Pool → Stmt → Prop
  | here {S p s} : Reaches env S p s S p s
  | into {S p s T q t U r u} : Enters env S p s T q t → Reaches env T q t U r u →
      Reaches env S p s U r u

/-- Where an expression that stands in a statement is lowered: before the statement, behind the body
of a loop that tests last, or in the frame of a loop over a collection. -/
inductive Stmt.Evaluates (env : Env) (S : Scopes) (p : Pool) : Stmt → Scopes → Pool → Prop
  | first {s} : Evaluates env S p s S p
  | doWhile {body c code U q} : (lowerStmt env S body).run.run p = (.ok (code, U), q) →
      Evaluates env S p (.doWhile body c) U q
  | foreach {element collection body index last frame inside inner} :
      S.Heads element collection index last frame inside inner →
      Evaluates env S p (.foreach element collection body) inside p

def Subroutine.Reaches (env : Env) (p : Pool) (s : Subroutine) (T : Scopes) (q : Pool)
    (t : Stmt) : Prop :=
  ∃ d U r u, Draft.start s.name.text s.parameters env.owner.isSome = .ok d ∧
    Stmt.Comes env d.scopes p s.body.statements U r u ∧ Stmt.Reaches env U r u T q t

section

variable {env : Env} {S T U : Scopes} {p q r : Pool} {s t : Stmt} {ss : List Stmt} {code : Code}
  {k n : Nat}

theorem lowerStmt_leads (hs : S.At k) (h : (lowerStmt env S s).run.run p = (.ok (code, U), q)) :
    Leads k S U :=
  (lowerStmt_emits env s S p _ q h).leads hs

theorem lowerStmts_leads {acc : Code} (hs : S.At k)
    (h : (lowerStmts env acc S ss).run.run p = (.ok (code, U), q)) : Leads k S U := by
  obtain ⟨_, hss, -⟩ := lowerStmts_emits env ss acc S p _ q h
  exact hss.leads hs

theorem run_marked_eq_ok {body : Stmt} {x : Lowered} :
    (marked env body <$> lowerStmt env S body).run.run p = (.ok x, q) ↔ ∃ code,
      (lowerStmt env S body).run.run p = (.ok (code, x.2), q) ∧
        x.1 = lineMark env body ++ code := by
  rw [map_eq_pure_bind, run_bind_eq_ok]
  constructor
  · rintro ⟨⟨code, U⟩, r, hrun, h⟩
    cases h
    exact ⟨code, hrun, rfl⟩
  · rintro ⟨code, hrun, hx⟩
    obtain ⟨_, U⟩ := x
    cases hx
    exact ⟨(code, U), q, hrun, rfl⟩

theorem run_ofExcept_eq_ok {α : Type} {e : Except CompileError α} {a : α} :
    (ofExcept e).run.run p = (.ok a, q) ↔ e = .ok a ∧ p = q := by
  cases e with
  | ok b =>
    constructor
    · intro h
      cases h
      exact ⟨rfl, rfl⟩
    · rintro ⟨h, rfl⟩
      cases h
      rfl
  | error e =>
    constructor
    · intro h
      cases h
    · rintro ⟨h, -⟩
      cases h

/-! Successful runs of statements with parts, taken apart. -/

section

variable {c : Expr} {body arm : Stmt} {span : Span}

theorem run_block_eq_ok {ss : List Stmt}
    (h : (lowerStmt env S (.block ⟨ss, span⟩)).run.run p = (.ok (code, U), r)) : ∃ V,
      (lowerStmts env [] S.enter ss).run.run p = (.ok (code, V), r) ∧ U = V.exit := by
  simp only [lowerStmt] at h
  obtain ⟨⟨_, V⟩, _, hbody, h⟩ := run_bind_eq_ok.mp h
  cases h
  exact ⟨V, hbody, rfl⟩

theorem run_if_eq_ok
    (h : (lowerStmt env S (.if_ (some c) body none span)).run.run p = (.ok (code, U), r)) :
    ∃ test q inner, (lower env S c).run.run p = (.ok test, q) ∧
      (lowerStmt env S body).run.run q = (.ok (inner, U), r) := by
  simp only [lowerStmt] at h
  obtain ⟨test, q, htest, h⟩ := run_bind_eq_ok.mp h
  obtain ⟨⟨_, V⟩, _, hbody, h⟩ := run_bind_eq_ok.mp h
  obtain ⟨inner, hbody, -⟩ := run_marked_eq_ok.mp hbody
  obtain ⟨_, _, hskip, h⟩ := run_bind_eq_ok.mp h
  obtain ⟨-, rfl⟩ := run_ofExcept_eq_ok.mp hskip
  cases h
  exact ⟨test, q, inner, htest, hbody⟩

theorem run_ifElse_eq_ok
    (h : (lowerStmt env S (.if_ (some c) body (some arm) span)).run.run p = (.ok (code, U), r)) :
    ∃ test q inner V q' other, (lower env S c).run.run p = (.ok test, q) ∧
      (lowerStmt env S body).run.run q = (.ok (inner, V), q') ∧
      (lowerStmt env V arm).run.run q' = (.ok (other, U), r) := by
  simp only [lowerStmt] at h
  obtain ⟨test, q, htest, h⟩ := run_bind_eq_ok.mp h
  obtain ⟨⟨_, V⟩, q', hbody, h⟩ := run_bind_eq_ok.mp h
  obtain ⟨inner, hbody, -⟩ := run_marked_eq_ok.mp hbody
  obtain ⟨_, _, hskip, h⟩ := run_bind_eq_ok.mp h
  obtain ⟨-, rfl⟩ := run_ofExcept_eq_ok.mp hskip
  obtain ⟨⟨_, W⟩, _, harm, h⟩ := run_bind_eq_ok.mp h
  obtain ⟨other, harm, -⟩ := run_marked_eq_ok.mp harm
  obtain ⟨_, _, hskip, h⟩ := run_bind_eq_ok.mp h
  obtain ⟨-, rfl⟩ := run_ofExcept_eq_ok.mp hskip
  cases h
  exact ⟨test, q, inner, V, q', other, htest, hbody, harm⟩

theorem run_while_eq_ok
    (h : (lowerStmt env S (.while_ c body)).run.run p = (.ok (code, U), r)) :
    ∃ test q inner, (lower env S c).run.run p = (.ok test, q) ∧
      (lowerStmt env S body).run.run q = (.ok (inner, U), r) := by
  simp only [lowerStmt] at h
  obtain ⟨test, q, htest, h⟩ := run_bind_eq_ok.mp h
  obtain ⟨⟨_, V⟩, _, hbody, h⟩ := run_bind_eq_ok.mp h
  obtain ⟨inner, hbody, -⟩ := run_marked_eq_ok.mp hbody
  obtain ⟨_, _, hloop, h⟩ := run_bind_eq_ok.mp h
  obtain ⟨-, rfl⟩ := run_ofExcept_eq_ok.mp hloop
  cases h
  exact ⟨test, q, inner, htest, hbody⟩

theorem run_doWhile_eq_ok
    (h : (lowerStmt env S (.doWhile body c)).run.run p = (.ok (code, U), r)) :
    ∃ inner q test, (lowerStmt env S body).run.run p = (.ok (inner, U), q) ∧
      (lower env U c).run.run q = (.ok test, r) := by
  simp only [lowerStmt] at h
  obtain ⟨⟨_, V⟩, q, hbody, h⟩ := run_bind_eq_ok.mp h
  obtain ⟨inner, hbody, -⟩ := run_marked_eq_ok.mp hbody
  obtain ⟨test, _, htest, h⟩ := run_bind_eq_ok.mp h
  obtain ⟨_, _, hback, h⟩ := run_bind_eq_ok.mp h
  obtain ⟨-, rfl⟩ := run_ofExcept_eq_ok.mp hback
  cases h
  exact ⟨inner, q, test, hbody, htest⟩

theorem run_foreach_eq_ok {element : Token}
    (h : (lowerStmt env S (.foreach element c body)).run.run p = (.ok (code, U), r)) :
    ∃ index last frame inside inner items q more V out back,
      S.Heads element c index last frame inside inner ∧
      (lower env inside c).run.run p = (.ok items, q) ∧
      (lowerStmt env inner body).run.run q = (.ok (more, V), r) ∧ U = V.exit ∧
      code = foreachCode (.ofLocal index) (.ofLocal last) items (lineMark env body ++ more) out
        back := by
  simp only [lowerStmt] at h
  obtain ⟨items, q, hitems, h⟩ := run_bind_eq_ok.mp h
  split at h
  · cases h
  next frame henclosing =>
  split at h
  · cases h
  next inner hbind =>
  obtain ⟨⟨_, V⟩, _, hbody, h⟩ := run_bind_eq_ok.mp h
  obtain ⟨more, hbody, rfl⟩ := run_marked_eq_ok.mp hbody
  obtain ⟨_, _, hloop, h⟩ := run_bind_eq_ok.mp h
  obtain ⟨heq, rfl⟩ := run_ofExcept_eq_ok.mp hloop
  obtain ⟨out, back, -, -, rfl⟩ := loopCode_eq_ok.mp heq
  cases h
  exact ⟨_, _, frame, _, inner, items, q, more, V, out, back, ⟨rfl, rfl, rfl, henclosing, hbind⟩,
    hitems, hbody, rfl, rfl⟩

end

/-- The head of a loop over a collection is determined by where it stands. -/
theorem Scopes.Heads.unique {element : Token} {c : Expr} {index last index' last' : UInt16}
    {frame frame' : Nat} {inside inner inside' inner' : Scopes}
    (h : S.Heads element c index last frame inside inner)
    (h' : S.Heads element c index' last' frame' inside' inner') :
    index = index' ∧ last = last' ∧ frame = frame' ∧ inside = inside' ∧ inner = inner' := by
  obtain ⟨rfl, rfl, rfl, hframe, hbind⟩ := h
  obtain ⟨rfl, rfl, rfl, hframe', hbind'⟩ := h'
  obtain rfl : frame = frame' := Option.some.inj (hframe.symm.trans hframe')
  exact ⟨rfl, rfl, rfl, rfl, Option.some.inj (hbind.symm.trans hbind')⟩

/-- Lowering a statement succeeds in frame `k`, and hands out no more than `n` slots in all. -/
structure Stmt.Succeeds (env : Env) (k n : Nat) (S : Scopes) (p : Pool) (s : Stmt) : Prop where
  here : S.At k
  runs : ∃ code U q, (lowerStmt env S s).run.run p = (.ok (code, U), q) ∧ U.slotCount ≤ n

/-- From frame `k` of `S` on, `T` is in frame `m` of the same frames or of more inside. -/
structure Scopes.Within (k : Nat) (S : Scopes) (m : Nat) (T : Scopes) : Prop where
  le : k ≤ m
  here : T.At m
  below : ∀ j < k, T.frames[j]? = S.frames[j]?

namespace Scopes

theorem Within.refl (h : S.At k) : Within k S k S := ⟨Nat.le_refl k, h, fun _ _ => rfl⟩

theorem Within.trans {m l : Nat} (h : Within k S m T) (h' : Within m T l U) : Within k S l U where
  le := Nat.le_trans h.le h'.le
  here := h'.here
  below j hj := (h'.below j (Nat.lt_of_lt_of_le hj h.le)).trans (h.below j hj)

theorem Leads.within (h : Leads k S T) (hk : S.At k) : Within k S k T where
  le := Nat.le_refl k
  here := h.here
  below j hj := h.others j (Nat.lt_trans hj hk.bound) (Nat.ne_of_lt hj)

theorem Within.enter (h : S.At k) : Within k S S.frames.size S.enter where
  le := Nat.le_of_lt h.bound
  here := h.enter
  below _ hj := frames_enter S (Nat.lt_trans hj h.bound)

end Scopes

theorem Stmt.Comes.succeeds (h : Comes env S p ss T q t) (hs : S.At k)
    (hrun : ∃ acc code U r, (lowerStmts env acc S ss).run.run p = (.ok (code, U), r) ∧
      U.slotCount ≤ n) :
    t.Succeeds env k n T q ∧ Within k S k T ∧ p.Interns q := by
  induction h with
  | head =>
    obtain ⟨acc, code, U, r, hrun, hn⟩ := hrun
    simp only [lowerStmts] at hrun
    obtain ⟨⟨first, V⟩, p', hfirst, hrest⟩ := run_bind_eq_ok.mp hrun
    obtain ⟨code', hfirst, -⟩ := run_marked_eq_ok.mp hfirst
    have hleads := lowerStmts_leads (lowerStmt_leads hs hfirst).here hrest
    exact ⟨⟨hs, code', V, p', hfirst, Nat.le_trans hleads.slots hn⟩, .refl hs, .refl⟩
  | tail hfirst _ ih =>
    obtain ⟨acc, code, U, r, hrun, hn⟩ := hrun
    simp only [lowerStmts] at hrun
    obtain ⟨⟨first, V⟩, p', hfirst', hrest⟩ := run_bind_eq_ok.mp hrun
    obtain ⟨code', hfirst', -⟩ := run_marked_eq_ok.mp hfirst'
    cases hfirst.symm.trans hfirst'
    have hleads := lowerStmt_leads hs hfirst
    obtain ⟨ht, hwithin, hpool⟩ := ih hleads.here ⟨_, code, U, r, hrest, hn⟩
    exact ⟨ht, (hleads.within hs).trans hwithin,
      ((lowerStmt_interning _ _).of_run hfirst).trans hpool⟩

/-- The parts of a statement that lowers are lowered in its frame or in frames inside. -/
theorem Stmt.Enters.succeeds (h : Enters env S p s T q t) (hs : s.Succeeds env k n S p) :
    ∃ m, t.Succeeds env m n T q ∧ Within k S m T ∧ p.Interns q := by
  obtain ⟨hat, code, U, r, hrun, hn⟩ := hs
  cases h with
  | block h =>
    obtain ⟨V, hbody, rfl⟩ := run_block_eq_ok hrun
    obtain ⟨ht, hwithin, hpool⟩ := h.succeeds hat.enter ⟨_, code, V, r, hbody, hn⟩
    exact ⟨_, ht, (Within.enter hat).trans hwithin, hpool⟩
  | always =>
    simp only [lowerStmt] at hrun
    obtain ⟨inner, hbody, -⟩ := run_marked_eq_ok.mp hrun
    exact ⟨k, ⟨hat, inner, U, r, hbody, hn⟩, .refl hat, .refl⟩
  | @if_ c body arm span test q htest =>
    have hpool := (lower_interning S c).of_run htest
    cases arm with
    | none =>
      obtain ⟨_, _, inner, htest', hbody⟩ := run_if_eq_ok hrun
      cases htest.symm.trans htest'
      exact ⟨k, ⟨hat, inner, U, r, hbody, hn⟩, .refl hat, hpool⟩
    | some arm =>
      obtain ⟨_, _, inner, V, q', other, htest', hbody, harm⟩ := run_ifElse_eq_ok hrun
      cases htest.symm.trans htest'
      have hleads := lowerStmt_leads (lowerStmt_leads hat hbody).here harm
      exact ⟨k, ⟨hat, inner, V, q', hbody, Nat.le_trans hleads.slots hn⟩, .refl hat, hpool⟩
  | else_ htest hbody =>
    obtain ⟨_, _, inner, V, q', other, htest', hbody', harm⟩ := run_ifElse_eq_ok hrun
    cases htest.symm.trans htest'
    cases hbody.symm.trans hbody'
    have hleads := lowerStmt_leads hat hbody
    have hpool :=
      ((lower_interning S _).of_run htest).trans ((lowerStmt_interning _ _).of_run hbody)
    exact ⟨k, ⟨hleads.here, other, U, r, harm, hn⟩, hleads.within hat, hpool⟩
  | while_ htest =>
    obtain ⟨_, _, inner, htest', hbody⟩ := run_while_eq_ok hrun
    cases htest.symm.trans htest'
    exact ⟨k, ⟨hat, inner, U, r, hbody, hn⟩, .refl hat, (lower_interning S _).of_run htest⟩
  | doWhile =>
    obtain ⟨inner, q, test, hbody, -⟩ := run_doWhile_eq_ok hrun
    exact ⟨k, ⟨hat, inner, U, q, hbody, hn⟩, .refl hat, .refl⟩
  | foreach hheads hitems =>
    obtain ⟨_, _, _, _, _, _, _, more, V, _, _, hheads', hitems', hbody, rfl, -⟩ :=
      run_foreach_eq_ok hrun
    obtain ⟨rfl, rfl, rfl, rfl, rfl⟩ := hheads.unique hheads'
    cases hitems.symm.trans hitems'
    obtain ⟨-, hinside, hinner⟩ := hheads.leads hat
    have hwithin := (Within.enter hat).trans ((hinside.trans hinner).within hat.enter)
    exact ⟨_, ⟨hinner.here, more, V, r, hbody, hn⟩, hwithin, (lower_interning _ _).of_run hitems⟩

/-- All that a statement that lowers comes to is lowered in its frame or in frames inside. -/
theorem Stmt.Reaches.succeeds (h : Reaches env S p s T q t) (hs : s.Succeeds env k n S p) :
    ∃ m, t.Succeeds env m n T q ∧ Within k S m T ∧ p.Interns q := by
  induction h generalizing k with
  | here => exact ⟨k, hs, .refl hs.here, .refl⟩
  | into hfirst _ ih =>
    obtain ⟨l, ht, hwithin, hpool⟩ := hfirst.succeeds hs
    obtain ⟨m, hu, hwithin', hpool'⟩ := ih ht
    exact ⟨m, hu, hwithin.trans hwithin', hpool.trans hpool'⟩

/-- So are its expressions. -/
theorem Stmt.Evaluates.within (h : Evaluates env S p s T q) (hs : s.Succeeds env k n S p) :
    ∃ m, Within k S m T ∧ p.Interns q := by
  cases h with
  | first => exact ⟨k, .refl hs.here, .refl⟩
  | doWhile hbody =>
    exact ⟨k, (lowerStmt_leads hs.here hbody).within hs.here,
      (lowerStmt_interning _ _).of_run hbody⟩
  | foreach hheads =>
    obtain ⟨-, hinside, -⟩ := hheads.leads hs.here
    exact ⟨_, (Within.enter hs.here).trans (hinside.within hs.here.enter), .refl⟩

/-- Whatever a subroutine that lowers comes to is lowered, with no more slots than a body may
have. -/
theorem Subroutine.Reaches.succeeds {s : Subroutine} (h : s.Reaches env p T q t)
    (hrun : (lowerSubroutine env s).run.run p = (.ok code, r)) :
    ∃ k, t.Succeeds env k Draft.maxLocals T q := by
  obtain ⟨d, U, r', u, hstart, hcomes, hreaches⟩ := h
  unfold lowerSubroutine at hrun
  obtain ⟨d', _, hstart', hrun⟩ := run_bind_eq_ok.mp hrun
  obtain ⟨heq, rfl⟩ := run_ofExcept_eq_ok.mp hstart'
  cases hstart.symm.trans heq
  obtain ⟨⟨body, V⟩, _, hbody, hrun⟩ := run_bind_eq_ok.mp hrun
  obtain ⟨hfinish, -⟩ := run_ofExcept_eq_ok.mp hrun
  unfold Draft.finish at hfinish
  split at hfinish
  · cases hfinish
  · next hmax =>
    obtain ⟨hu, -, -⟩ := hcomes.succeeds (Draft.start_at hstart)
      ⟨_, body, V, _, hbody, Nat.le_of_not_lt hmax⟩
    obtain ⟨m, ht, -, -⟩ := hreaches.succeeds hu
    exact ⟨m, ht⟩

end

end Lss
