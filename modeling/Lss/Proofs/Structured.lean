import Lss.Proofs.Straight

/-!
# Structured code read back

Reading finds every loop at its head, the widest one first, and every `if` at its branch, so that
each piece of code is read as a statement over what its parts are read as. What keeps two loops
apart is that no branch behind a piece of code leads back into it.
-/
namespace Lss

namespace Body

open Stacked Library

variable {b : Body} {code : Code} {i stop : Nat} (acc : List Stmt)

theorem region_done (b : Body) (stack : OperandStack) (i : Nat) :
    b.region stack acc i i = .ok (acc.reverse, stack) := by
  rw [region, dif_neg (Nat.lt_irrefl i)]

theorem condition_expr (place : Nat) (e : Expr) : condition place [.expr e] = .ok e.whole := by
  simp only [condition, valueOf_expr]
  rfl

/-- A part that ends where its branch leads to, and not in a branch forward. -/
theorem opening_plain (hl : b.Laid code) {t : Nat} (ht : code.Jumps i t) (hlt : i < t)
    (hle : t ≤ stop)
    (hlast : ∀ d, i < t - 1 → code[t - 1]? = some (.branch .always d) → ¬ 0 < d) :
    b.opening i stop = .ok (.plain t hlt hle) := by
  unfold opening
  rw [hl.target ht]
  simp only
  rw [dif_pos ⟨hlt, hle⟩]
  split
  · next hbody =>
    rw [hl.getElem?]
    split
    · next d hd => rw [if_neg (hlast d hbody hd)]
    · rfl
  · rfl

/-- A part that ends in a branch over another one. -/
theorem opening_else (hl : b.Laid code) {last join : Nat} (ht : code.Jumps i (last + 1))
    (hlt : i < last) (hle : last < stop) {d : Int16}
    (hlast : code[last]? = some (.branch .always d)) (hd : 0 < d) (hjoin : code.Jumps last join) :
    b.opening i stop = .ok (.withElse last join hlt hle) := by
  unfold opening
  rw [hl.target ht]
  simp only [Nat.add_sub_cancel]
  rw [dif_pos ⟨by omega, hle⟩, dif_pos hlt, hl.getElem?, hlast]
  simp only
  rw [if_pos hd, hl.target hjoin]

theorem region_plain (hl : b.Laid code) {d : Int16}
    (hi : code[i]? = some (.branch .ifFalse d)) (hstop : i < stop) {t : Nat} {hlt : i < t}
    {hle : t ≤ stop} (hopen : b.opening i stop = .ok (.plain t hlt hle)) {body : List Stmt}
    (hbody : b.region [] [] (i + 1) t = .ok (body, [])) (e : Expr) :
    b.region [.expr e] acc i stop =
      b.region [] (.if_ (some e.whole) (.ofList body) none .synthetic :: acc) t stop := by
  rw [region, dif_pos hstop, hl.getElem?, hi]
  simp only [List.isEmpty_cons, Bool.false_eq_true, if_false, hopen, condition_expr, hbody]
  rfl

theorem region_else (hl : b.Laid code) {d : Int16}
    (hi : code[i]? = some (.branch .ifFalse d)) (hstop : i < stop) {last join : Nat}
    {hlt : i < last} {hle : last < stop}
    (hopen : b.opening i stop = .ok (.withElse last join hlt hle))
    (hjoin : last < join ∧ join ≤ stop) {body arm : List Stmt}
    (hbody : b.region [] [] (i + 1) last = .ok (body, []))
    (harm : b.region [] [] (last + 1) join = .ok (arm, [])) (e : Expr) :
    b.region [.expr e] acc i stop =
      b.region [] (.if_ (some e.whole) (.ofList body)
        (some (.if_ none (elseArm arm) none .synthetic)) .synthetic :: acc) join stop := by
  rw [region, dif_pos hstop, hl.getElem?, hi]
  simp only [List.isEmpty_cons, Bool.false_eq_true, if_false, hopen, condition_expr, hbody, harm]
  rw [dif_pos hjoin]
  rfl

/-- What an empty `else` leaves is passed over. -/
theorem region_empty_else (hl : b.Laid code) (hi : code[i]? = some (.branch .always 0))
    (hstop : i < stop) (hloop : b.loopEnd? i stop = none) :
    b.region [] acc i stop = b.region [] acc (i + 1) stop := by
  rw [region, dif_pos hstop, hl.getElem?, hi]
  simp only [List.isEmpty_nil, if_true, hloop]

theorem region_doWhile (hl : b.Laid code) {instruction : Instruction}
    (hi : code[i]? = some instruction) {back : Nat} (hloop : b.loopEnd? i stop = some back)
    (hback : i ≤ back ∧ back < stop) {d : Int16} (hkind : code[back]? = some (.branch .ifTrue d))
    {body : List Stmt} {e : Expr} (hbody : b.region [] [] i back = .ok (body, [.expr e])) :
    b.region [] acc i stop =
      b.region [] (.doWhile (.ofList body) e.whole :: acc) (back + 1) stop := by
  rw [region, dif_pos (Nat.lt_of_le_of_lt hback.1 hback.2), hl.getElem?, hi]
  simp only [List.isEmpty_nil, if_true, hloop]
  rw [dif_pos hback, hl.getElem?, hkind]
  simp only [hbody, valueOf_expr]

theorem region_while (hl : b.Laid code) {instruction : Instruction}
    (hi : code[i]? = some instruction) {back exit : Nat} (hloop : b.loopEnd? i stop = some back)
    (hback : i ≤ back ∧ back < stop) {d : Int16} (hkind : code[back]? = some (.branch .always d))
    (hexit : b.loopExit? i back = some exit) (hrange : i ≤ exit ∧ exit < back) {e : Expr}
    (htest : b.region [] [] i exit = .ok ([], [.expr e])) {body : List Stmt}
    (hbody : b.region [] [] (exit + 1) back = .ok (body, [])) :
    b.region [] acc i stop =
      b.region [] (.while_ e.whole (.ofList body) :: acc) (back + 1) stop := by
  rw [region, dif_pos (Nat.lt_of_le_of_lt hback.1 hback.2), hl.getElem?, hi]
  simp only [List.isEmpty_nil, if_true, hloop]
  rw [dif_pos hback, hl.getElem?, hkind]
  simp only [hexit]
  rw [dif_pos hrange]
  simp only [htest, valueOf_expr, hbody]
  rfl

/-- The first branch of a loop leaves it. -/
theorem loopExit?_eq (hl : b.Laid code) {back exit : Nat} {d : Int16}
    (hexit : code[exit]? = some (.branch .ifFalse d)) (ht : code.Jumps exit (back + 1))
    (hrange : i ≤ exit ∧ exit < back)
    (hfirst : ∀ k, i ≤ k → k < exit → ∀ kind d, code[k]? ≠ some (.branch kind d)) :
    b.loopExit? i back = some exit := by
  unfold loopExit?
  rw [List.find?_range'_eq_some]
  refine ⟨?_, ?_, fun k hk hlt => ?_⟩
  · simp [hl.getElem?, hexit, hl.target ht]
  · rw [List.mem_range'_1]
    omega
  · rw [hl.getElem?]
    split
    · next d' hd => exact absurd hd (hfirst k hk hlt _ _)
    · rfl

/-- From `p` on, a stretch that ends at `stop` is read as statements as `P` says up to `q`. -/
def Reads (b : Body) (P : List Stmt → Prop) (p q stop : Nat) : Prop :=
  ∀ acc, ∃ ss, P ss ∧ b.region [] acc p stop = b.region [] (ss.reverse ++ acc) q stop

def Evaluates (b : Body) (E : Expr → Prop) (p q stop : Nat) : Prop :=
  ∀ acc, ∃ e, E e ∧ b.region [] acc p stop = b.region [.expr e] acc q stop

variable {p q r : Nat} {P Q R : List Stmt → Prop} {E : Expr → Prop}

theorem Reads.refl (b : Body) (p stop : Nat) (hR : R []) : b.Reads R p p stop :=
  fun _ => ⟨[], hR, rfl⟩

theorem Reads.trans (h : b.Reads P p q stop) (k : b.Reads Q q r stop)
    (hR : ∀ ss ts, P ss → Q ts → R (ss ++ ts)) : b.Reads R p r stop := by
  intro acc
  obtain ⟨ss, hss, hread⟩ := h acc
  obtain ⟨ts, hts, hread'⟩ := k (ss.reverse ++ acc)
  refine ⟨ss ++ ts, hR ss ts hss hts, ?_⟩
  rw [hread, hread', List.reverse_append, List.append_assoc]

theorem Reads.imp (h : b.Reads P p q stop) (hR : ∀ ss, P ss → R ss) : b.Reads R p q stop := by
  intro acc
  obtain ⟨ss, hss, hread⟩ := h acc
  exact ⟨ss, hR ss hss, hread⟩

theorem Reads.whole (h : b.Reads P p q q) : ∃ ss, P ss ∧ b.region [] [] p q = .ok (ss, []) := by
  obtain ⟨ss, hss, hread⟩ := h []
  refine ⟨ss, hss, ?_⟩
  rw [hread, region_done, List.append_nil, List.reverse_reverse]

/-- Nothing is read as no statements. -/
theorem Reads.nothing (h : b.Reads P p p p) : P [] := by
  obtain ⟨ss, hss, hread⟩ := h.whole
  rw [region_done] at hread
  cases hread
  exact hss

theorem Evaluates.whole (h : b.Evaluates E p q q) :
    ∃ e, E e ∧ b.region [] [] p q = .ok ([], [.expr e]) := by
  obtain ⟨e, he, hread⟩ := h []
  exact ⟨e, he, by rw [hread, region_done, List.reverse_nil]⟩

theorem skeleton_elseArm (arm : List Stmt) : (elseArm arm).skeleton = Stmt.skeletons arm := by
  unfold elseArm
  split
  · rw [Stmt.skeletons, Stmt.skeletons, List.append_nil]
  · exact Stmt.skeleton_ofList _

theorem reads_if (hl : b.Laid code) (htest : b.Evaluates E p i stop) {d : Int16}
    (hi : code[i]? = some (.branch .ifFalse d)) {t : Nat} (ht : code.Jumps i t) (hlt : i < t)
    (hle : t ≤ stop)
    (hlast : ∀ d, i < t - 1 → code[t - 1]? = some (.branch .always d) → ¬ 0 < d)
    (hbody : b.Reads P (i + 1) t t)
    (hR : ∀ e body, E e → P body → R [.if_ (some e.whole) (.ofList body) none .synthetic]) :
    b.Reads R p t stop := by
  intro acc
  obtain ⟨e, he, htest⟩ := htest acc
  obtain ⟨body, hP, hbody⟩ := hbody.whole
  refine ⟨_, hR e body he hP, htest.trans ?_⟩
  exact region_plain acc hl hi (Nat.lt_of_lt_of_le hlt hle) (opening_plain hl ht hlt hle hlast)
    hbody e

theorem reads_ifElse (hl : b.Laid code) (htest : b.Evaluates E p i stop) {d past : Int16}
    (hi : code[i]? = some (.branch .ifFalse d)) {last join : Nat} (ht : code.Jumps i (last + 1))
    (hlt : i < last) (hle : join ≤ stop) (hlast : code[last]? = some (.branch .always past))
    (hpast : 0 < past) (hjoin : code.Jumps last join) (hafter : last < join)
    (hbody : b.Reads P (i + 1) last last) (harm : b.Reads Q (last + 1) join join)
    (hR : ∀ e body arm, E e → P body → Q arm → R [.if_ (some e.whole) (.ofList body)
      (some (.if_ none (elseArm arm) none .synthetic)) .synthetic]) : b.Reads R p join stop := by
  intro acc
  obtain ⟨e, he, htest⟩ := htest acc
  obtain ⟨body, hP, hbody⟩ := hbody.whole
  obtain ⟨arm, hQ, harm⟩ := harm.whole
  refine ⟨_, hR e body arm he hP hQ, htest.trans ?_⟩
  exact region_else acc hl hi (by omega) (opening_else hl ht hlt (by omega) hlast hpast hjoin)
    ⟨hafter, hle⟩ hbody harm e

theorem reads_doWhile (hl : b.Laid code) {back : Nat} (hloop : b.loopEnd? p stop = some back)
    (hle : p ≤ back) (hlt : back < stop) {d : Int16}
    (hkind : code[back]? = some (.branch .ifTrue d)) (hbody : b.Reads P p q back)
    (htest : b.Evaluates E q back back)
    (hR : ∀ body e, P body → E e → R [.doWhile (.ofList body) e.whole]) :
    b.Reads R p (back + 1) stop := by
  intro acc
  obtain ⟨body, hP, hbody⟩ := hbody []
  obtain ⟨e, he, htest⟩ := htest (body.reverse ++ [])
  rw [htest, region_done, List.append_nil, List.reverse_reverse] at hbody
  have hlen := (List.getElem?_eq_some_iff.mp hkind).1
  have hp := List.getElem?_eq_getElem (Nat.lt_of_le_of_lt hle hlen)
  exact ⟨_, hR body e hP he, region_doWhile acc hl hp hloop ⟨hle, hlt⟩ hkind hbody⟩

theorem reads_while (hl : b.Laid code) {back exit : Nat} (hloop : b.loopEnd? p stop = some back)
    (hlt : back < stop) {d out : Int16} (hkind : code[back]? = some (.branch .always d))
    (hexit : code[exit]? = some (.branch .ifFalse out)) (ht : code.Jumps exit (back + 1))
    (hrange : p ≤ exit ∧ exit < back)
    (hfirst : ∀ k, p ≤ k → k < exit → ∀ kind d, code[k]? ≠ some (.branch kind d))
    (htest : b.Evaluates E p exit exit) (hbody : b.Reads P (exit + 1) back back)
    (hR : ∀ e body, E e → P body → R [.while_ e.whole (.ofList body)]) :
    b.Reads R p (back + 1) stop := by
  intro acc
  obtain ⟨e, he, htest⟩ := htest.whole
  obtain ⟨body, hP, hbody⟩ := hbody.whole
  have hlen := (List.getElem?_eq_some_iff.mp hkind).1
  have hp := List.getElem?_eq_getElem (show p < code.length by omega)
  refine ⟨_, hR e body he hP, ?_⟩
  exact region_while acc hl hp hloop ⟨by omega, hlt⟩ hkind (loopExit?_eq hl hexit ht hrange hfirst)
    hrange htest hbody

end Body

/-- Statements end in no branch over other code. -/
theorem Shaped.not_skip {P : Instruction → Prop} {sk : List Skeleton} {code : Code}
    (h : Shaped P sk code) {d : Int16} (hlast : code.getLast? = some (.branch .always d)) :
    ¬ 0 < d := by
  induction h with
  | nil => cases hlast
  | @append a b x y _ _ iha ihb =>
    by_cases hy : y = []
    · rw [hy, List.append_nil] at hlast
      exact iha hlast
    · rw [List.getLast?_append_of_ne_nil _ hy] at hlast
      exact ihb hlast
  | mark line => cases hlast
  | store _ hs _ =>
    rw [List.getLast?_concat] at hlast
    exact absurd (Option.some.inj hlast) (Instruction.not_branch_of_isStore hs _ _)
  | drop | return_ =>
    rw [List.getLast?_concat] at hlast
    cases hlast
  | @if_ test a body skip _ _ _ ih =>
    by_cases hbody : body = []
    · rw [hbody, List.getLast?_concat] at hlast
      cases hlast
    · rw [List.getLast?_append_of_ne_nil _ (by simp), List.getLast?_cons_of_ne_nil hbody] at hlast
      exact ih hlast
  | @ifElse test a body b arm skip past _ _ _ _ hpast _ ih =>
    by_cases harm : arm = []
    · rw [harm, List.getLast?_concat] at hlast
      cases hlast
      rw [harm] at hpast
      rw [Int16.lt_iff_toInt_lt, hpast]
      simp
    · rw [List.getLast?_append_of_ne_nil _ (by simp), List.getLast?_cons_of_ne_nil harm] at hlast
      exact ih hlast
  | while_ _ _ _ hback =>
    rw [List.getLast?_concat] at hlast
    cases hlast
    rw [Int16.lt_iff_toInt_lt, hback]
    simp
    omega
  | doWhile =>
    rw [List.getLast?_concat] at hlast
    cases hlast

section

open Stacked Library Body

variable {P : Instruction → Prop} {b : Body} {code pre x post : Code} {stop : Nat}
  {E : Expr → Prop} {n : Nat} {Q R : List Stmt → Prop}

theorem Library.Builds.evaluates (hl : b.Laid code) (hx : b.library.Builds b.names E 1 x)
    (hcode : code = pre ++ x ++ post) (hstop : (pre ++ x).length ≤ stop)
    (hloop : ∀ k < x.length, b.loopEnd? (pre.length + k) stop = none) :
    b.Evaluates E pre.length (pre ++ x).length stop := by
  intro acc
  obtain ⟨es, ⟨hlen, hes⟩, hshows⟩ := hx
  obtain ⟨e, rfl⟩ := List.length_eq_one_iff.mp hlen
  exact ⟨e, List.forall_mem_singleton.mp hes, region_runs hl (hshows []) acc hcode hstop hloop⟩

theorem Pushes.reads (hl : b.Laid code) (hn : b.Notes code code.length) (h : Pushes P n x)
    (hx : b.library.Builds b.names E n x) {i : Instruction}
    (hbranch : ∀ kind distance, i ≠ .branch kind distance) {S : Stmt → Prop}
    (hdoes : Does E (step b.library b.names i) n 0 (Completes S))
    (hcode : code = pre ++ (x ++ [i]) ++ post) (hstop : (pre ++ (x ++ [i])).length ≤ stop)
    (hclear : code.Clear (pre ++ (x ++ [i])).length stop) (hR : ∀ s, S s → R [s]) :
    b.Reads R pre.length (pre ++ (x ++ [i])).length stop := by
  have hcode' : code = pre ++ x ++ i :: post := by simp [hcode]
  have hlen : (pre ++ (x ++ [i])).length = (pre ++ x).length + 1 := by simp [Nat.add_assoc]
  rw [hlen] at hstop hclear ⊢
  have hloop (k : Nat) (hle : k ≤ x.length) : b.loopEnd? (pre.length + k) stop = none := by
    refine hn.loopEnd?_straight h hcode' (fun _ _ heq => absurd heq (hbranch _ _))
      (Nat.le_add_right _ _) ?_ hclear
    rw [List.length_append]
    exact Nat.add_le_add_left hle _
  have hi : code[(pre ++ x).length]? = some i := by rw [hcode']; simp
  obtain ⟨es, hes, hshows⟩ := hx
  intro acc
  have hend : b.loopEnd? (pre ++ x).length stop = none := by
    rw [List.length_append]
    exact hloop _ (Nat.le_refl _)
  obtain ⟨s, hs, hdone⟩ := region_complete hl acc hi hbranch hstop hend hdoes hes
  exact ⟨[s], hR s hs, (region_runs hl (hshows []) acc hcode' (Nat.le_of_lt hstop) fun k hk =>
    hloop k (Nat.le_of_lt hk)).trans hdone⟩

theorem reads_mark (hl : b.Laid code) (hn : b.Notes code code.length) {line : UInt16}
    (hcode : code = pre ++ [Instruction.lineNumber line] ++ post)
    (hstop : (pre ++ [Instruction.lineNumber line]).length ≤ stop)
    (hclear : code.Clear (pre ++ [Instruction.lineNumber line]).length stop) (hR : R []) :
    b.Reads R pre.length (pre ++ [Instruction.lineNumber line]).length stop := by
  have hcode' : code = pre ++ [] ++ .lineNumber line :: post := by simp [hcode]
  have hi : code[pre.length]? = some (.lineNumber line) := by simp [hcode]
  rw [List.length_append, List.length_singleton] at hstop hclear ⊢
  have hloop := hn.loopEnd?_straight (P := fun _ => True) .nil hcode' (by simp)
    (Nat.le_refl _) (by simp) (by simpa using hclear)
  refine fun acc => ⟨[], hR, ?_⟩
  rw [region_step hl hi (by simp) hstop hloop]
  rfl

def Body.Recovers (b : Body) (code : Code) (R : List Stmt → Prop) (x : Code) : Prop :=
  ∀ pre post stop, code = pre ++ x ++ post → (pre ++ x).length ≤ stop →
    code.Clear (pre ++ x).length stop → b.Reads R pre.length (pre ++ x).length stop

theorem Body.Recovers.imp (h : b.Recovers code Q x) (hR : ∀ ss, Q ss → R ss) :
    b.Recovers code R x :=
  fun pre post stop hcode hstop hclear => (h pre post stop hcode hstop hclear).imp hR

theorem Body.Recovers.append {T : List Stmt → Prop} {y : Code} {sk : List Skeleton}
    (hx : b.Recovers code Q x) (hy : b.Recovers code R y) (hshape : Shaped P sk y)
    (hT : ∀ ss ts, Q ss → R ts → T (ss ++ ts)) : b.Recovers code T (x ++ y) := by
  intro pre post stop hcode hstop hclear
  rw [← List.append_assoc] at hcode hstop hclear ⊢
  have hclear' := hshape.clear hcode hclear
  have hle : (pre ++ x).length ≤ stop := by
    simp only [List.length_append] at hstop ⊢
    omega
  exact (hx pre (y ++ post) stop (by simp [hcode]) hle hclear').trans
    (hy (pre ++ x) post stop hcode hstop hclear) hT

theorem recovers_nil (hR : R []) : b.Recovers code R [] := by
  intro pre post stop _ _ _
  rw [List.append_nil]
  exact .refl b pre.length stop hR

theorem Pushes.evaluates_test (hl : b.Laid code) (hn : b.Notes code code.length)
    (h : Pushes P 1 x) (hx : b.library.Builds b.names E 1 x) {skip : Int16}
    (hcode : code = pre ++ x ++ Instruction.branch .ifFalse skip :: post)
    (hstop : (pre ++ x).length ≤ stop) (hclear : code.Clear ((pre ++ x).length + 1) stop) :
    b.Evaluates E pre.length (pre ++ x).length stop := by
  refine hx.evaluates hl hcode hstop fun k hk =>
    hn.loopEnd?_straight h hcode ?_ (Nat.le_add_right _ _) ?_ hclear
  · intro kind distance heq
    cases heq
    rfl
  · rw [List.length_append]
    exact Nat.add_le_add_left (Nat.le_of_lt hk) _

/-- In front of the branch that closes a loop over it. -/
theorem Pushes.evaluates_last (hl : b.Laid code) (hn : b.Notes code code.length)
    (h : Pushes P 1 x) (hx : b.library.Builds b.names E 1 x) (hcode : code = pre ++ x ++ post) :
    b.Evaluates E pre.length (pre ++ x).length (pre ++ x).length :=
  hx.evaluates hl hcode (Nat.le_refl _) fun _ _ => hn.loopEnd?_last h hcode (Nat.le_add_right _ _)

theorem recovers_if (hl : b.Laid code) (hn : b.Notes code code.length) {test body : Code}
    {sk : List Skeleton} {skip : Int16} (ht : Pushes P 1 test)
    (hx : b.library.Builds b.names E 1 test) (hb : Shaped P sk body)
    (hbody : b.Recovers code Q body) (hskip : skip.toInt = Code.size body)
    (hR : ∀ e body, E e → Q body → R [.if_ (some e.whole) (.ofList body) none .synthetic]) :
    b.Recovers code R (test ++ Instruction.branch .ifFalse skip :: body) := by
  intro pre post stop hcode hstop hclear
  have hsplit : pre ++ (test ++ Instruction.branch .ifFalse skip :: body) =
      pre ++ test ++ [Instruction.branch .ifFalse skip] ++ body := by simp
  rw [hsplit] at hcode hstop hclear ⊢
  have htest : code = pre ++ test ++ Instruction.branch .ifFalse skip :: (body ++ post) := by
    simp [hcode]
  have hi : code[(pre ++ test).length]? = some (.branch .ifFalse skip) := by rw [htest]; simp
  have hhead : (pre ++ test ++ [Instruction.branch .ifFalse skip]).length =
      (pre ++ test).length + 1 := List.length_append
  have hend : (pre ++ test ++ [Instruction.branch .ifFalse skip] ++ body).length =
      (pre ++ test).length + 1 + body.length := by rw [List.length_append, hhead]
  have hinside := hb.clear hcode hclear
  rw [hhead] at hinside
  have hjump : code.Jumps (pre ++ test).length
      (pre ++ test ++ [Instruction.branch .ifFalse skip] ++ body).length := by
    refine Code.jumps_of_size htest ⟨post, hcode.symm⟩ ?_
    simp only [Code.size_append, Code.size_cons, Code.size_nil, Instruction.size_branch, hskip]
    omega
  have hread := hbody _ post _ hcode (Nat.le_refl _) (Code.clear_self _ _)
  rw [hhead] at hread
  refine reads_if hl (ht.evaluates_test hl hn hx htest (by omega) hinside) hi hjump (by omega)
    hstop ?_ hread hR
  intro d hlt hd hpos
  have hne : body ≠ [] := by
    rintro rfl
    simp at hlt
  rw [hcode, List.getElem?_append_left (by omega), ← List.getLast?_eq_getElem?,
    List.getLast?_append_of_ne_nil _ hne] at hd
  exact hb.not_skip hd hpos

/-- The branch that an empty `else` leaves is part of what it ends. -/
theorem recovers_empty_else (hl : b.Laid code) (hn : b.Notes code code.length) {body : Code}
    (hbody : b.Recovers code Q body) (hcode : code = pre ++ body ++
      Instruction.branch .always 0 :: post) :
    b.Reads Q pre.length ((pre ++ body).length + 1) ((pre ++ body).length + 1) := by
  have hi : code[(pre ++ body).length]? = some (.branch .always 0) := by rw [hcode]; simp
  have hjump : code.Jumps (pre ++ body).length ((pre ++ body).length + 1) := by
    have hto : (pre ++ body ++ [Instruction.branch .always 0]).length = (pre ++ body).length + 1 :=
      List.length_append
    rw [← hto]
    refine Code.jumps_of_size hcode ⟨post, by simp [hcode]⟩ ?_
    simp only [Code.size_append, Code.size_cons, Code.size_nil, Instruction.size_branch,
      Int16.toInt_zero]
    omega
  -- the only branch of the stretch behind the body
  have hnext (j t : Nat) (hle : (pre ++ body).length ≤ j) (hlt : j < (pre ++ body).length + 1)
      (h : code.Jumps j t) : t = (pre ++ body).length + 1 := by
    obtain rfl : j = (pre ++ body).length := by omega
    exact h.unique hjump
  have hclear : code.Clear (pre ++ body).length ((pre ++ body).length + 1) := by
    intro j t hle hlt h
    rw [hnext j t hle hlt h]
    exact Nat.le_succ _
  have hloop : b.loopEnd? (pre ++ body).length ((pre ++ body).length + 1) = none := by
    refine hn.loopEnd?_eq_none fun j hle hlt h => ?_
    have := hnext j _ hle hlt h.jumps
    omega
  have hrest : b.Reads (· = []) (pre ++ body).length ((pre ++ body).length + 1)
      ((pre ++ body).length + 1) :=
    fun acc => ⟨[], rfl, region_empty_else acc hl hi (Nat.lt_succ_self _) hloop⟩
  refine (hbody pre _ _ hcode (Nat.le_succ _) hclear).trans hrest ?_
  rintro ss _ hss rfl
  rwa [List.append_nil]

theorem recovers_ifElse (hl : b.Laid code) (hn : b.Notes code code.length) {test body arm : Code}
    {sk sk' : List Skeleton} {skip past : Int16} {Q' : List Stmt → Prop} (ht : Pushes P 1 test)
    (hx : b.library.Builds b.names E 1 test) (hb : Shaped P sk body) (ha : Shaped P sk' arm)
    (hbody : b.Recovers code Q body) (harm : b.Recovers code Q' arm)
    (hskip : skip.toInt = Code.size body + 3) (hpast : past.toInt = Code.size arm)
    (hR : ∀ e body arm, E e → Q body → Q' arm → R [.if_ (some e.whole) (.ofList body)
      (some (.if_ none (elseArm arm) none .synthetic)) .synthetic])
    (hplain : Q' [] → ∀ e body, E e → Q body →
      R [.if_ (some e.whole) (.ofList body) none .synthetic]) :
    b.Recovers code R (test ++ Instruction.branch .ifFalse skip :: body ++
      Instruction.branch .always past :: arm) := by
  intro pre post stop hcode hstop hclear
  have hsplit : pre ++ (test ++ Instruction.branch .ifFalse skip :: body ++
      Instruction.branch .always past :: arm) =
        pre ++ test ++ [Instruction.branch .ifFalse skip] ++ body ++
        [Instruction.branch .always past] ++ arm := by simp
  rw [hsplit] at hcode hstop hclear ⊢
  have htest : code = pre ++ test ++ Instruction.branch .ifFalse skip ::
      (body ++ Instruction.branch .always past :: (arm ++ post)) := by simp [hcode]
  have hguard : code = pre ++ test ++ [Instruction.branch .ifFalse skip] ++ body ++
      Instruction.branch .always past :: (arm ++ post) := by simp [hcode]
  have hi : code[(pre ++ test).length]? = some (.branch .ifFalse skip) := by rw [htest]; simp
  -- what is before the body, and what is before the arm
  generalize hhead : pre ++ test ++ [Instruction.branch .ifFalse skip] = head at *
  generalize hmid : head ++ body ++ [Instruction.branch .always past] = mid at *
  have hheadlen : head.length = (pre ++ test).length + 1 := by
    rw [← hhead]
    exact List.length_append
  have hmidlen : mid.length = (head ++ body).length + 1 := by
    rw [← hmid]
    exact List.length_append
  have hbodylen : (head ++ body).length = head.length + body.length := List.length_append
  have hend : (mid ++ arm).length = mid.length + arm.length := List.length_append
  have hlast : code[(head ++ body).length]? = some (.branch .always past) := by rw [hguard]; simp
  have hskips : code.Jumps (pre ++ test).length mid.length := by
    refine Code.jumps_of_size htest ⟨arm ++ post, by simp [hcode]⟩ ?_
    simp only [← hmid, ← hhead, Code.size_append, Code.size_cons, Code.size_nil,
      Instruction.size_branch, hskip]
    omega
  have hjoins : code.Jumps (head ++ body).length (mid ++ arm).length := by
    refine Code.jumps_of_size hguard ⟨post, hcode.symm⟩ ?_
    simp only [← hmid, Code.size_append, Code.size_cons, Code.size_nil, Instruction.size_branch,
      hpast]
    omega
  have hinside : code.Clear head.length stop := by
    refine hb.clear hguard fun j t hle hlt hjump => ?_
    rcases Nat.eq_or_lt_of_le hle with rfl | hafter
    · rw [hjump.unique hjoins]
      omega
    · have := ha.clear hcode hclear j t (by omega) hlt hjump
      omega
  have hvalue := ht.evaluates_test hl hn hx htest (by omega) (hheadlen ▸ hinside)
  have hread' := harm _ post _ hcode (Nat.le_refl _) (Code.clear_self _ _)
  by_cases hnil : arm = []
  · subst hnil
    have hzero : past = 0 := by
      refine Int16.toInt_inj.mp ?_
      simp [hpast]
    rw [hzero] at hguard hlast
    have hread := recovers_empty_else hl hn hbody hguard
    rw [← hmidlen, hheadlen] at hread
    rw [List.append_nil] at hread' hstop ⊢
    refine reads_if hl hvalue hi hskips (by omega) hstop ?_ hread (hplain hread'.nothing)
    intro d _ hd
    rw [hmidlen, Nat.add_sub_cancel, hlast] at hd
    cases hd
    decide
  · have hpast' : 0 < past := by
      rw [Int16.lt_iff_toInt_lt, hpast]
      obtain ⟨i, arm, rfl⟩ := List.exists_cons_of_ne_nil hnil
      have := i.size_pos
      simp only [Code.size_cons, Int16.toInt_zero]
      omega
    have hread := hbody _ _ _ hguard (Nat.le_refl _) (Code.clear_self _ _)
    rw [hheadlen] at hread
    rw [hmidlen] at hread' hskips
    exact reads_ifElse hl hvalue hi hskips (by omega) hstop hlast hpast' hjoins (by omega) hread
      hread' hR

theorem recovers_while (hl : b.Laid code) (hn : b.Notes code code.length) {test body : Code}
    {out back : Int16} (ht : Pushes P 1 test) (hx : b.library.Builds b.names E 1 test)
    (hbody : b.Recovers code Q body) (hout : out.toInt = Code.size body + 3)
    (hback : back.toInt = -(Code.size test + Code.size body + 6))
    (hR : ∀ e body, E e → Q body → R [.while_ e.whole (.ofList body)]) :
    b.Recovers code R
      (test ++ Instruction.branch .ifFalse out :: body ++ [Instruction.branch .always back]) := by
  intro pre post stop hcode hstop hclear
  have hsplit : pre ++ (test ++ Instruction.branch .ifFalse out :: body ++
      [Instruction.branch .always back]) =
        pre ++ test ++ [Instruction.branch .ifFalse out] ++ body ++
        [Instruction.branch .always back] := by simp
  rw [hsplit] at hcode hstop hclear ⊢
  have htest : code = pre ++ test ++ Instruction.branch .ifFalse out ::
      (body ++ Instruction.branch .always back :: post) := by simp [hcode]
  have hinner : code = pre ++ test ++ [Instruction.branch .ifFalse out] ++ body ++
      Instruction.branch .always back :: post := by simp [hcode]
  have hexit : code[(pre ++ test).length]? = some (.branch .ifFalse out) := by rw [htest]; simp
  generalize hhead : pre ++ test ++ [Instruction.branch .ifFalse out] = head at *
  have hheadlen : head.length = (pre ++ test).length + 1 := by
    rw [← hhead]
    exact List.length_append
  have hbodylen : (head ++ body).length = head.length + body.length := List.length_append
  have hend : (head ++ body ++ [Instruction.branch .always back]).length =
      (head ++ body).length + 1 := List.length_append
  have hprelen : (pre ++ test).length = pre.length + test.length := List.length_append
  have hlast : code[(head ++ body).length]? = some (.branch .always back) := by rw [hinner]; simp
  have hleaves : code.Jumps (pre ++ test).length ((head ++ body).length + 1) := by
    rw [← hend]
    refine Code.jumps_of_size htest ⟨post, hcode.symm⟩ ?_
    simp only [← hhead, Code.size_append, Code.size_cons, Code.size_nil, Instruction.size_branch,
      hout]
    omega
  have hreturns : code.Jumps (head ++ body).length pre.length := by
    refine Code.jumps_of_size hinner ⟨test ++ Instruction.branch .ifFalse out :: (body ++
      Instruction.branch .always back :: post), by simp [htest]⟩ ?_
    simp only [← hhead, Code.size_append, Code.size_cons, Code.size_nil, Instruction.size_branch,
      hback]
    omega
  have hedge : code.BackEdge (head ++ body).length pre.length :=
    hreturns.backEdge hlast (by simp) (by omega)
  rw [hend] at hstop hclear ⊢
  have hread := hbody _ _ _ hinner (Nat.le_refl _) (Code.clear_self _ _)
  rw [hheadlen] at hread
  exact reads_while hl (hn.loopEnd?_of_clear hedge hstop hclear) hstop hlast hexit hleaves
    (by omega) (fun k hle hlt => ht.getElem?_ne_branch htest hle hlt)
    (ht.evaluates_last hl hn hx htest) hread hR

theorem recovers_doWhile (hl : b.Laid code) (hn : b.Notes code code.length) {body test : Code}
    {back : Int16} (ht : Pushes P 1 test) (hx : b.library.Builds b.names E 1 test)
    (hbody : b.Recovers code Q body)
    (hback : back.toInt = -(Code.size body + Code.size test + 3))
    (hR : ∀ body e, Q body → E e → R [.doWhile (.ofList body) e.whole]) :
    b.Recovers code R (body ++ test ++ [Instruction.branch .ifTrue back]) := by
  intro pre post stop hcode hstop hclear
  have hsplit : pre ++ (body ++ test ++ [Instruction.branch .ifTrue back]) =
      pre ++ body ++ test ++ [Instruction.branch .ifTrue back] := by simp
  rw [hsplit] at hcode hstop hclear ⊢
  have htest : code = pre ++ body ++ test ++ Instruction.branch .ifTrue back :: post := by
    simp [hcode]
  have hinner : code = pre ++ body ++ (test ++ Instruction.branch .ifTrue back :: post) := by
    simp [hcode]
  have hlast : code[(pre ++ body ++ test).length]? = some (.branch .ifTrue back) := by
    rw [htest]
    simp
  have hend : (pre ++ body ++ test ++ [Instruction.branch .ifTrue back]).length =
      (pre ++ body ++ test).length + 1 := List.length_append
  have htestlen : (pre ++ body ++ test).length = (pre ++ body).length + test.length :=
    List.length_append
  have hbodylen : (pre ++ body).length = pre.length + body.length := List.length_append
  have hreturns : code.Jumps (pre ++ body ++ test).length pre.length := by
    refine Code.jumps_of_size htest ⟨body ++ (test ++ Instruction.branch .ifTrue back :: post),
      by simp [htest]⟩ ?_
    simp only [Code.size_append, hback]
    omega
  have hedge : code.BackEdge (pre ++ body ++ test).length pre.length :=
    hreturns.backEdge hlast (by simp) (by omega)
  -- the test has no branches, so that the body stands alone in the loop
  have hinside : code.Clear (pre ++ body).length (pre ++ body ++ test).length := by
    rintro j t hle hlt ⟨kind, distance, hj, -⟩
    exact absurd hj (ht.getElem?_ne_branch htest hle hlt kind distance)
  rw [hend] at hstop hclear ⊢
  exact reads_doWhile hl (hn.loopEnd?_of_clear hedge hstop hclear) (by omega) hstop hlast
    (hbody _ _ _ hinner (by omega) hinside) (ht.evaluates_last hl hn hx htest) hR

end

/-- Code of statements is read back as statements of the same skeleton. -/
theorem Shaped.recovers {c : Container} {locals : Nat} {b : Body} {code x : Code}
    (hl : b.Laid code) (hn : b.Notes code code.length) (hlib : b.library = .ofContainer c)
    {sk : List Skeleton} (h : Shaped (Instruction.Resolves c locals) sk x) :
    b.Recovers code (Stmt.skeletons · = sk) x := by
  have hG := Expr.hereditary_true c
  have hvalue {n : Nat} {x : Code} (h : Pushes (Instruction.Resolves c locals) n x) :
      b.library.Builds b.names (fun _ => True) n x := by
    rw [hlib]
    exact h.builds b.names
  induction h with
  | nil => exact recovers_nil rfl
  | append _ hy ihx ihy =>
    refine ihx.append ihy hy fun ss ts hss hts => ?_
    rw [Stmt.skeletons_append, hss, hts]
  | mark line => exact fun _ _ _ hcode hstop hclear => reads_mark hl hn hcode hstop hclear rfl
  | @store code i hv hs hr =>
    intro _ _ _ hcode hstop hclear
    refine hv.reads hl hn (hvalue hv) (Instruction.not_branch_of_isStore hs)
      (hlib ▸ does_step_store hG hs hr fun _ _ _ => trivial) hcode hstop hclear ?_
    rintro _ ⟨t, v, rfl, -⟩
    rfl
  | drop hv =>
    intro _ _ _ hcode hstop hclear
    refine hv.reads hl hn (hvalue hv) (by simp) (does_step_pop hG _ _) hcode hstop hclear ?_
    rintro _ ⟨e, rfl, -⟩
    rfl
  | return_ hv =>
    intro _ _ _ hcode hstop hclear
    refine hv.reads hl hn (hvalue hv) (by simp) (does_step_return hG _ _) hcode hstop hclear ?_
    rintro _ ⟨v, rfl, -⟩
    cases v <;> rfl
  | if_ ht hb hskip ih =>
    refine recovers_if hl hn ht (hvalue ht) hb ih hskip ?_
    rintro e body - rfl
    simp [Stmt.skeletons, Stmt.skeleton]
  | ifElse ht hb ha hskip hpast ihb iha =>
    refine recovers_ifElse hl hn ht (hvalue ht) hb ha ihb iha hskip hpast ?_ ?_
    · rintro e body arm - rfl rfl
      simp [Stmt.skeletons, Stmt.skeleton, Body.skeleton_elseArm]
    · rintro rfl e body - rfl
      simp [Stmt.skeletons, Stmt.skeleton]
  | while_ ht _ hout hback ih =>
    refine recovers_while hl hn ht (hvalue ht) ih hout hback ?_
    rintro e body - rfl
    simp [Stmt.skeletons, Stmt.skeleton]
  | doWhile _ ht hback ih =>
    refine recovers_doWhile hl hn ht (hvalue ht) ih hback ?_
    rintro body e rfl -
    simp [Stmt.skeletons, Stmt.skeleton]

end Lss
