import Mathlib.Data.List.Infix
import Lss.Proofs.DerivedUnit

/-!
# Parsers keep to their braces

Whatever a parser meets, it never takes a closing brace that some earlier token opened: the tokens
that it takes are balanced, unless the input ends in the middle of a block, and what it complains
of stands among them or right behind. The same is true of skipping to where parsing can go on.
-/
namespace Lss

/-! Depth of braces. -/

/-- How many braces are open behind tokens, if `d` are before them; nothing where one is closed that
is not open. -/
def braceDepth (d : Nat) : List Token → Option Nat
  | [] => some d
  | t :: ts =>
    if t.kind = .leftBrace then braceDepth (d + 1) ts
    else if t.kind = .rightBrace then if d = 0 then none else braceDepth (d - 1) ts
    else braceDepth d ts

def TokenKind.isBrace : TokenKind → Bool
  | .leftBrace | .rightBrace => true
  | _ => false

theorem TokenKind.isBrace_eq_false {k : TokenKind} :
    k.isBrace = false ↔ k ≠ .leftBrace ∧ k ≠ .rightBrace := by
  cases k <;> simp [isBrace]

variable {d k : Nat} {t : Token} {ts a b : List Token}

@[simp] theorem braceDepth_nil : braceDepth d [] = some d := rfl

theorem braceDepth_left (h : t.kind = .leftBrace) :
    braceDepth d (t :: ts) = braceDepth (d + 1) ts := by
  rw [braceDepth, if_pos h]

theorem braceDepth_right (h : t.kind = .rightBrace) :
    braceDepth (d + 1) (t :: ts) = braceDepth d ts := by
  rw [braceDepth, if_neg (by rw [h]; decide), if_pos h, if_neg (Nat.succ_ne_zero d)]
  rfl

theorem braceDepth_stray (h : t.kind = .rightBrace) : braceDepth 0 (t :: ts) = none := by
  rw [braceDepth, if_neg (by rw [h]; decide), if_pos h, if_pos rfl]

theorem braceDepth_plain (h : t.kind.isBrace = false) :
    braceDepth d (t :: ts) = braceDepth d ts := by
  obtain ⟨hl, hr⟩ := TokenKind.isBrace_eq_false.mp h
  rw [braceDepth, if_neg hl, if_neg hr]

theorem braceDepth_append : braceDepth d (a ++ b) = (braceDepth d a).bind (braceDepth · b) := by
  induction a generalizing d with
  | nil => rfl
  | cons t a ih =>
    rw [List.cons_append, braceDepth, braceDepth]
    split
    · exact ih
    · split
      · split
        · rfl
        · exact ih
      · exact ih

/-- Behind one more open brace, everything is one deeper. -/
theorem braceDepth_succ (h : braceDepth d ts = some k) : braceDepth (d + 1) ts = some (k + 1) := by
  induction ts generalizing d with
  | nil =>
    cases h
    rfl
  | cons t ts ih =>
    by_cases hl : t.kind = .leftBrace
    · rw [braceDepth_left hl] at h ⊢
      exact ih h
    · by_cases hr : t.kind = .rightBrace
      · cases d with
        | zero =>
          rw [braceDepth_stray hr] at h
          cases h
        | succ d =>
          rw [braceDepth_right hr] at h ⊢
          exact ih h
      · have hp : t.kind.isBrace = false := TokenKind.isBrace_eq_false.mpr ⟨hl, hr⟩
        rw [braceDepth_plain hp] at h ⊢
        exact ih h

/-! Balance, by counting. -/

def openings (ts : List Token) : Nat := ts.countP fun t => t.kind = .leftBrace

def closings (ts : List Token) : Nat := ts.countP fun t => t.kind = .rightBrace

structure Balanced (ts : List Token) : Prop where
  never : ∀ p, p <+: ts → closings p ≤ openings p
  equal : openings ts = closings ts

instance : Decidable (Balanced ts) :=
  decidable_of_iff ((∀ p ∈ ts.inits, closings p ≤ openings p) ∧ openings ts = closings ts)
    ⟨fun h => ⟨fun p hp => h.1 p ((List.mem_inits p ts).mpr hp), h.2⟩,
      fun h => ⟨fun p hp => h.never p ((List.mem_inits p ts).mp hp), h.equal⟩⟩

theorem openings_cons : openings (t :: ts)
    = openings ts + if t.kind = .leftBrace then 1 else 0 := by
  simp [openings, List.countP_cons]

theorem closings_cons : closings (t :: ts)
    = closings ts + if t.kind = .rightBrace then 1 else 0 := by
  simp [closings, List.countP_cons]

theorem braceDepth_of_counts (hpre : ∀ p, p <+: ts → closings p ≤ openings p + d)
    (hk : openings ts + d = closings ts + k) : braceDepth d ts = some k := by
  induction ts generalizing d with
  | nil =>
    simp only [openings, closings, List.countP_nil] at hk
    rw [braceDepth_nil, show d = k by omega]
  | cons t ts ih =>
    have hpre' (p : List Token) (hp : p <+: ts) :=
      hpre (t :: p) (List.cons_prefix_cons.mpr ⟨rfl, hp⟩)
    simp only [openings_cons, closings_cons] at hpre' hk
    by_cases hl : t.kind = .leftBrace
    · rw [braceDepth_left hl]
      simp only [hl, reduceCtorEq, if_true, if_false] at hpre' hk
      apply ih
      · intro p hp
        have := hpre' p hp
        omega
      · omega
    · by_cases hr : t.kind = .rightBrace
      · simp only [hr, reduceCtorEq, if_true, if_false] at hpre' hk
        cases d with
        | zero =>
          have := hpre' [] List.nil_prefix
          simp [openings, closings] at this
        | succ d =>
          rw [braceDepth_right hr]
          apply ih
          · intro p hp
            have := hpre' p hp
            omega
          · omega
      · have hp : t.kind.isBrace = false := TokenKind.isBrace_eq_false.mpr ⟨hl, hr⟩
        rw [braceDepth_plain hp]
        simp only [hl, hr, if_false] at hpre' hk
        exact ih hpre' hk

theorem Balanced.braceDepth (h : Balanced ts) : braceDepth 0 ts = some 0 :=
  braceDepth_of_counts (fun p hp => by simpa using h.never p hp) (by simpa using h.equal)

/-! From tokens to those that are left. -/

def Located (ts : List Token) (notes : List Diagnostic) : Prop :=
  ∀ n ∈ notes, ∃ t ∈ ts, n.span = t.span

theorem Located.mono {notes : List Diagnostic} (h : Located a notes) (hab : ∀ t ∈ a, t ∈ b) :
    Located b notes := by
  intro n hn
  obtain ⟨t, ht, hspan⟩ := h n hn
  exact ⟨t, hab t ht, hspan⟩

theorem Located.append {notes more : List Diagnostic} (h : Located a notes) (h' : Located a more) :
    Located a (notes ++ more) := by
  intro n hn
  rcases List.mem_append.mp hn with hn | hn
  · exact h n hn
  · exact h' n hn

theorem located_nil : Located a [] := by
  intro n hn
  cases hn

theorem located_at {f : ParseFault} (h : t ∈ a) : Located a [f.at_ t] := by
  intro n hn
  rw [List.mem_singleton.mp hn]
  exact ⟨t, h, rfl⟩

namespace Parser

variable {fin : Token} {ss rest mid : List Token} {notes more : List Diagnostic}

/-- The tokens taken from `ts` are balanced, unless all are, and `notes` stand among them or at what
comes next. -/
def Passes (fin : Token) (ts rest : List Token) (notes : List Diagnostic) : Prop :=
  ∃ c k, ts = c ++ rest ∧ braceDepth 0 c = some k ∧ (k = 0 ∨ rest = []) ∧
    Located (c ++ [rest.headD fin]) notes

theorem Passes.refl : Passes fin ts ts [] :=
  ⟨[], 0, rfl, rfl, .inl rfl, located_nil⟩

theorem Passes.fail {f : ParseFault} : Passes fin ts ts [f.at_ (ts.headD fin)] :=
  ⟨[], 0, rfl, rfl, .inl rfl, located_at (by simp)⟩

theorem Passes.trans (h : Passes fin ts mid notes) (h' : Passes fin mid rest more) :
    Passes fin ts rest (notes ++ more) := by
  obtain ⟨c, k, rfl, hc, hk, hn⟩ := h
  obtain ⟨c', k', rfl, hc', hk', hn'⟩ := h'
  have hdepth : ∃ n, braceDepth 0 (c ++ c') = some n ∧ (n = 0 ∨ rest = []) := by
    rcases hk with rfl | hmid
    · exact ⟨k', by rw [braceDepth_append, hc]; exact hc', hk'⟩
    · obtain ⟨rfl, hrest⟩ := List.append_eq_nil_iff.mp hmid
      exact ⟨k, by rw [List.append_nil, hc], .inr hrest⟩
  obtain ⟨n, hn0, hnk⟩ := hdepth
  refine ⟨c ++ c', n, by simp, hn0, hnk, .append (hn.mono ?_) (hn'.mono ?_)⟩
  · intro t ht
    rcases List.mem_append.mp ht with ht | ht
    · simp [ht]
    · rw [List.mem_singleton.mp ht]
      cases c' <;> simp
  · intro t ht
    rcases List.mem_append.mp ht with ht | ht <;> simp_all

/-- A token that is no brace. -/
theorem Passes.cons (ht : t.kind.isBrace = false) (h : Passes fin ts rest notes) :
    Passes fin (t :: ts) rest notes := by
  obtain ⟨c, k, rfl, hc, hk, hn⟩ := h
  refine ⟨t :: c, k, rfl, by rw [braceDepth_plain ht, hc], hk, hn.mono ?_⟩
  intro s hs
  exact List.mem_cons_of_mem _ hs

theorem Passes.subset (h : Passes fin ts rest notes) (hsub : ∀ n ∈ more, n ∈ notes) :
    Passes fin ts rest more := by
  obtain ⟨c, k, hts, hc, hk, hn⟩ := h
  exact ⟨c, k, hts, hc, hk, fun n hm => hn n (hsub n hm)⟩

/-- What a block goes through from behind its brace: up to and with the brace that closes it, or to
the end. -/
def Closes (fin : Token) (ts rest : List Token) (notes : List Diagnostic) : Prop :=
  (∃ c t, ts = c ++ t :: rest ∧ t.kind = .rightBrace ∧ braceDepth 0 c = some 0 ∧
    Located (c ++ [t]) notes) ∨
  (rest = [] ∧ ∃ k, braceDepth 0 ts = some k ∧ Located (ts ++ [fin]) notes)

theorem Passes.closes (h : Passes fin ts (t :: rest) notes) (ht : t.kind = .rightBrace) :
    Closes fin ts rest notes := by
  obtain ⟨c, k, rfl, hc, hk, hn⟩ := h
  rcases hk with rfl | hk
  · exact .inl ⟨c, t, rfl, ht, hc, hn⟩
  · cases hk

theorem Passes.ends {f : ParseFault} (h : Passes fin ts [] notes) :
    Closes fin ts [] (notes ++ [f.at_ fin]) := by
  obtain ⟨c, k, rfl, hc, -, hn⟩ := h
  refine .inr ⟨rfl, k, by rw [List.append_nil, hc], .append (hn.mono ?_) (located_at (by simp))⟩
  intro s hs
  simpa using hs

/-- A whole block. -/
theorem Closes.passes (ht : t.kind = .leftBrace) (h : Closes fin ts rest notes) :
    Passes fin (t :: ts) rest notes := by
  rcases h with ⟨c, s, rfl, hs, hc, hn⟩ | ⟨rfl, k, hk, hn⟩
  · refine ⟨t :: (c ++ [s]), 0, by simp, ?_, .inl rfl, hn.mono ?_⟩
    · rw [braceDepth_left ht, braceDepth_append, braceDepth_succ hc]
      exact braceDepth_right hs
    · intro x hx
      exact List.mem_cons_of_mem _ (List.mem_append_left _ hx)
  · refine ⟨t :: ts, k + 1, by simp, ?_, .inr rfl, hn.mono ?_⟩
    · rw [braceDepth_left ht, braceDepth_succ hk]
    · intro x hx
      exact List.mem_cons_of_mem _ hx

/-! Going on after a failure. -/

theorem synchronize_eq (d : Nat) (ts : List Token) : ∃ c k, ts = c ++ synchronize d ts ∧
    braceDepth d c = some k ∧ (k = 0 ∨ synchronize d ts = []) := by
  have step {d' : Nat} {t : Token} {ts : List Token} {d : Nat}
      (hd : ∀ c, braceDepth d (t :: c) = braceDepth d' c)
      (ih : ∃ c k, ts = c ++ synchronize d' ts ∧ braceDepth d' c = some k ∧
        (k = 0 ∨ synchronize d' ts = [])) :
      ∃ c k, t :: ts = c ++ synchronize d' ts ∧ braceDepth d c = some k ∧
        (k = 0 ∨ synchronize d' ts = []) := by
    obtain ⟨c, k, hts, hc, hk⟩ := ih
    exact ⟨t :: c, k, by rw [List.cons_append, ← hts], by rw [hd, hc], hk⟩
  fun_induction synchronize d ts with
  | case1 d => exact ⟨[], d, rfl, rfl, .inr rfl⟩
  | case2 t ts hk =>
    exact ⟨[t], 0, rfl, by rw [braceDepth_plain (by rw [hk]; rfl)]; rfl, .inl rfl⟩
  | case3 d t ts hk hd ih => exact step (fun c => braceDepth_plain (by rw [hk]; rfl)) ih
  | case4 d t ts hk ih => exact step (fun c => braceDepth_left hk) ih
  | case5 t ts hk => exact ⟨[], 0, rfl, rfl, .inl rfl⟩
  | case6 t ts hk => exact ⟨[t], 0, rfl, by rw [braceDepth_right hk]; rfl, .inl rfl⟩
  | case7 t ts hk d ih => exact step (fun c => braceDepth_right hk) ih
  | case8 d t ts _ _ _ h =>
    simp only [Bool.and_eq_true, decide_eq_true_eq] at h
    exact ⟨[], d, rfl, rfl, .inl h.1⟩
  | case9 d t ts _ hl hr h ih =>
    have hp : t.kind.isBrace = false := TokenKind.isBrace_eq_false.mpr ⟨hl, hr⟩
    exact step (fun c => braceDepth_plain hp) ih

theorem synchronize_passes (ts : List Token) : Passes fin ts (synchronize 0 ts) [] := by
  obtain ⟨c, k, hts, hc, hk⟩ := synchronize_eq 0 ts
  exact ⟨c, k, hts, hc, hk, located_nil⟩

/-- Going on drops no closing brace, where none was the reason for the failure. -/
theorem recover_passes {moved : Bool}
    (h : moved = false → ∀ t ∈ rest.head?, t.kind ≠ .rightBrace) :
    Passes fin rest (recover moved rest) [] := by
  unfold recover
  split
  · exact .refl
  · next t ts =>
    split
    · next hm =>
      simp only [Bool.and_eq_true, Bool.not_eq_true', Bool.or_eq_true, decide_eq_true_eq] at hm
      have hr := h hm.1 t rfl
      have hb : t.kind.beginsStatement := hm.2.resolve_left hr
      apply Passes.cons _ .refl
      cases hk : t.kind <;> rw [hk] at hb <;> first | rfl | cases hb
    · exact synchronize_passes _

end Parser

end Lss
