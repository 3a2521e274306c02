import Mathlib.Data.List.Forall2
import Lss.Lowering.Session
import Lss.Proofs.LoweredBody

/-!
# Sessions that succeed

Errors are only ever added, so a session that ends without any had none on the way. Then every
subroutine was lowered, and what lowering gave is in the entry that bears its name.
-/
namespace Lss

open Lower

/-- Lowering gave this code for a subroutine, and the tables have grown to those of `q` since. -/
def LoweredInto (q : Pool) (env : Env) (s : Subroutine) (code : Code) : Prop :=
  ∃ p r : Pool, p.Exact ∧ (lowerSubroutine env s).run.run p = (.ok code, r) ∧ r.Extends q

theorem LoweredInto.mono {p q : Pool} {env : Env} {s : Subroutine} {code : Code}
    (hpq : p.Extends q) (h : LoweredInto p env s code) : LoweredInto q env s code := by
  obtain ⟨p', r, hp', hrun, hr⟩ := h
  exact ⟨p', r, hp', hrun, hr.trans hpq⟩

theorem LoweredInto.body {q : Pool} {env : Env} {s : Subroutine} {code : Code}
    (hg : env.globals.Exact) (h : LoweredInto q env s code) :
    BodyOf (fun n => Instruction.Fits (q.limits env n)) env.owner.isSome s code := by
  obtain ⟨p, r, hp, hrun, hr⟩ := h
  obtain ⟨-, -, hbody⟩ := lowerSubroutine_meets hg s hp code r hrun
  exact hbody.imp fun n _ => Instruction.Fits.mono (hr.below env (Nat.le_refl n))

def Container.pool (c : Container) : Pool := ⟨c.strings, c.symbols, []⟩

namespace Session

def pool (s : Session) : Pool := s.container.pool

structure Grows (s t : Session) : Prop where
  errors : s.errors = []
  exact : t.pool.Exact
  extends_ : s.pool.Extends t.pool
  globals : t.container.globals = s.container.globals

structure Advances (s t : Session) : Prop extends Grows s t where
  classes : t.container.classes = s.container.classes

variable {s t u : Session}

theorem Grows.refl (he : s.errors = []) (hp : s.pool.Exact) : Grows s s :=
  ⟨he, hp, .refl _, rfl⟩

theorem Grows.trans (h : Grows s t) (k : Grows t u) : Grows s u :=
  ⟨h.errors, k.exact, h.extends_.trans k.extends_, k.globals.trans h.globals⟩

theorem Advances.refl (he : s.errors = []) (hp : s.pool.Exact) : Advances s s :=
  ⟨.refl he hp, rfl⟩

theorem Advances.trans (h : Advances s t) (k : Advances t u) : Advances s u :=
  ⟨h.toGrows.trans k.toGrows, k.classes.trans h.classes⟩

/-- A computation of a session that ends without errors has a result. -/
theorem run_advances {α : Type} {f : Lower α} {r : Option α} {Q : Pool → α → Prop}
    (hf : Meets s.pool f Q) (hp : s.pool.Exact) (h : s.run f = (r, t)) (ht : t.errors = []) :
    Advances s t ∧ ∃ a q, r = some a ∧ f.run.run s.pool = (.ok a, q) ∧ q.Extends t.pool ∧
      Q q a := by
  obtain ⟨⟨major, minor, strings, symbols, globals, functions, classes⟩, errors, warnings⟩ := s
  simp only [run, pool, Container.pool] at h hf hp
  split at h
  · next a strings symbols more hrun =>
    cases h
    obtain ⟨hq, hext, hres⟩ := hf hp a _ hrun
    have hext' : Pool.Extends ⟨strings, symbols, more⟩ ⟨strings, symbols, []⟩ := ⟨.refl _, .refl _⟩
    refine ⟨⟨⟨ht, ⟨hq.strings, hq.symbols⟩, hext.trans hext', rfl⟩, rfl⟩, ?_⟩
    exact ⟨a, _, rfl, hrun, hext', hres⟩
  · cases h
    cases ht

theorem suffix_foldl {σ α : Type} {e : σ → List CompileError} {step : σ → α → σ}
    (hstep : ∀ x a, e x <:+ e (step x a)) (l : List α) (x : σ) :
    e x <:+ e (l.foldl step x) := by
  induction l generalizing x with
  | nil => exact List.suffix_refl _
  | cons a l ih => exact (hstep x a).trans (ih (step x a))

theorem nil_of_suffix {a b : List CompileError} (h : a <:+ b) (hb : b = []) : a = [] := by
  subst hb
  exact List.suffix_nil.mp h

theorem suffix_run {α : Type} (s : Session) (f : Lower α) : s.errors <:+ (s.run f).2.errors := by
  obtain ⟨⟨major, minor, strings, symbols, globals, functions, classes⟩, errors, warnings⟩ := s
  simp only [run]
  split
  · exact List.suffix_refl _
  · exact List.suffix_cons _ _

theorem suffix_addFunction (env : Env) (x : List FunctionEntry × Session)
    (b : Subroutine × UInt8) : x.2.errors <:+ (addFunction env x b).2.errors :=
  suffix_run x.2 (lowerSubroutine env b.1)

theorem suffix_addGlobal (s : Session) (t : Token) : s.errors <:+ (addGlobal s t).errors := by
  obtain ⟨⟨major, minor, strings, symbols, globals, functions, classes⟩, errors, warnings⟩ := s
  rcases hi : globals.intern t.text with ⟨e | i, grown⟩
  · simp only [addGlobal, hi]
    exact List.suffix_cons _ _
  · simp only [addGlobal, hi]
    exact List.suffix_refl _

theorem foldl_addFunction (env : Env) (hg : env.globals.Exact)
    {bodies : List (Subroutine × UInt8)} {acc entries : List FunctionEntry} (hp : s.pool.Exact)
    (h : bodies.foldl (addFunction env) (acc, s) = (entries, t)) (ht : t.errors = []) :
    Advances s t ∧ ∃ new, entries = new.reverse ++ acc ∧
      List.Forall₂ (fun b e => e.name = b.1.name.text ∧ e.parameterCount = b.2 ∧
        LoweredInto t.pool env b.1 e.code) bodies new := by
  induction bodies generalizing acc s with
  | nil =>
    cases h
    exact ⟨.refl ht hp, [], rfl, .nil⟩
  | cons b bodies ih =>
    obtain ⟨f, count⟩ := b
    rw [List.foldl_cons] at h
    generalize hrun : s.run (lowerSubroutine env f) = r at *
    obtain ⟨code, mid⟩ := r
    have hstep : addFunction env (acc, s) (f, count) =
        (⟨f.name.text, count, code.getD []⟩ :: acc, mid) := by
      simp only [addFunction, hrun]
    rw [hstep] at h
    have hmid : mid.errors = [] := by
      have := suffix_foldl (e := fun x : List FunctionEntry × Session => x.2.errors)
        (suffix_addFunction env) bodies (⟨f.name.text, count, code.getD []⟩ :: acc, mid)
      rw [h] at this
      exact nil_of_suffix this ht
    obtain ⟨hadv, body, q, rfl, hlow, hq, -⟩ :=
      run_advances (lowerSubroutine_meets hg f) hp hrun hmid
    obtain ⟨hrest, new, hnew, hall⟩ := ih hadv.exact h
    refine ⟨hadv.trans hrest, ⟨f.name.text, count, body⟩ :: new, ?_, .cons ⟨rfl, rfl, ?_⟩ hall⟩
    · simp [hnew]
    · exact ⟨s.pool, q, hp, hlow, hq.trans hrest.extends_⟩

end Session

end Lss
