import Lss.Proofs.Refolded

/-!
# Locals that are gone

After folding, a hidden local is neither mentioned nor declared. It gets no name then, so it is no
local of the tidy body under any name.
-/
namespace Lss

structure Stmt.Lacks (x : String) (ss : List Stmt) : Prop where
  mentions : Stmt.tallyAll x ss = 0
  binders : ∀ b ∈ Stmt.bindersAll ss, b.name ≠ x

section

variable {x : String}

theorem Expr.isPlaceholder_le_tally : (e : Expr) → (e.isPlaceholder x).toNat ≤ e.tally x
  | .variable t => Nat.le_of_eq (tally_variable t).symm
  | .grouping e => by
    rw [tally_grouping]
    exact Nat.le_add_right _ _
  | .literal _ | .unary _ _ _ | .binary _ _ _ | .index _ _ _ | .array _ _ | .call _ _ _
  | .construct _ _ _ | .pending _ => Nat.zero_le _

namespace Stmt

theorem Lacks.nil : Lacks x [] := ⟨rfl, nofun⟩

theorem lacks_append {ss ts : List Stmt} : Lacks x (ss ++ ts) ↔ Lacks x ss ∧ Lacks x ts := by
  constructor
  · rintro ⟨hmentions, hbinders⟩
    rw [tallyAll_append, Nat.add_eq_zero_iff] at hmentions
    simp only [bindersAll_append, List.mem_append] at hbinders
    exact ⟨⟨hmentions.1, fun b hb => hbinders b (.inl hb)⟩,
      hmentions.2, fun b hb => hbinders b (.inr hb)⟩
  · rintro ⟨h, k⟩
    refine ⟨by rw [tallyAll_append, h.mentions, k.mentions], fun b hb => ?_⟩
    rw [bindersAll_append] at hb
    exact (List.mem_append.mp hb).elim (h.binders b) (k.binders b)

theorem lacks_cons {s : Stmt} {ss : List Stmt} : Lacks x (s :: ss) ↔ Lacks x [s] ∧ Lacks x ss :=
  @lacks_append x [s] ss

theorem lacks_reverse {ss : List Stmt} : Lacks x ss.reverse ↔ Lacks x ss := by
  induction ss with
  | nil => rfl
  | cons s ss ih => rw [List.reverse_cons, lacks_append, ih, @lacks_cons x s ss, and_comm]

/-- A declaration lacks a local where its name is another and its value does not mention it. -/
theorem lacks_var {t : Token} {init : Option Expr} (hname : t.text ≠ x)
    (hinit : ∀ e ∈ init, e.tally x = 0) : Lacks x [.var t init] := by
  refine ⟨?_, fun b hb => ?_⟩
  · cases init with
    | none => rfl
    | some e => exact hinit e rfl
  · obtain rfl := List.mem_singleton.mp hb
    exact hname

theorem Lacks.of_var {t : Token} {init : Option Expr} (h : Lacks x [.var t init]) :
    t.text ≠ x ∧ ∀ e ∈ init, e.tally x = 0 := by
  refine ⟨h.binders ⟨.declared, t.text⟩ List.mem_cons_self, fun e he => ?_⟩
  cases he
  exact h.mentions

end Stmt

namespace Tidy

open Stmt

theorem Lacks.dropReturn {ss : List Stmt} (h : Lacks x ss) : Lacks x (dropReturn ss) := by
  unfold Tidy.dropReturn
  split
  · next hlast =>
    obtain ⟨front, rfl⟩ := List.getLast?_eq_some_iff.mp hlast
    rw [List.dropLast_concat]
    exact (lacks_append.mp h).1
  · exact h

/-- Where a local is not mentioned, it is not met. -/
theorem fold_meet_hoisted {l : Locals} (s : Stmt) (hs : s.tally x = 0) (hl : x ∉ l.hoisted) :
    x ∉ (s.fold Locals.meet l).hoisted := by
  -- mentions are counted in the same walk
  let both (b : Locals × Nat) (e : Expr) : Locals × Nat := (b.1.meet e, tallyStep x b.2 e)
  have hleft := Stmt.fold_hom (f := both) (h := Prod.fst) (g := Locals.meet) (fun _ _ => rfl) s
    (l, 0)
  have hright := Stmt.fold_hom (f := both) (h := Prod.snd) (g := tallyStep x) (fun _ _ => rfl) s
    (l, 0)
  have hkeeps := s.fold_keeps (f := both) (P := fun b => b.2 = 0 → x ∉ b.1.hoisted) (b := (l, 0))
    (fun b e hb hzero => ?_) fun _ => hl
  · rw [← hleft]
    exact hkeeps (hright.trans hs)
  · obtain ⟨hbefore, he⟩ := Nat.add_eq_zero_iff.mp hzero
    dsimp only [both]
    unfold Locals.meet
    split
    · next name hname =>
      split
      · exact hb hbefore
      · rw [List.mem_cons, not_or]
        refine ⟨?_, hb hbefore⟩
        rintro rfl
        rw [Expr.isPlaceholder_iff.mpr hname] at he
        cases he
    · exact hb hbefore

theorem declared?_lacks {l : Locals} {s : Stmt} {name : String} {init : Option Expr}
    (hs : s.tally x = 0) (h : declared? l s = some (name, init)) :
    Lacks x [.var (.identifier name) init] := by
  unfold declared? at h
  split at h
  · next t v =>
    rw [tally_assign, Nat.add_eq_zero_iff] at hs
    split at h
    · next hname =>
      split at h
      · cases h
      · cases h
        refine lacks_var ?_ fun e he => ?_
        · intro heq
          have hle := t.isPlaceholder_le_tally (x := x)
          rw [hs.1, Expr.isPlaceholder_iff.mpr (heq ▸ hname)] at hle
          cases hle
        · split at he
          · cases he
          · cases he
            exact hs.2
    · cases h
  · cases h

theorem declareOnto_lacks {l : Locals} {acc ss : List Stmt} (hl : x ∉ l.hoisted)
    (hacc : Lacks x acc) (hss : Lacks x ss) :
    x ∉ (declareOnto l acc ss).2.hoisted ∧ Lacks x (declareOnto l acc ss).1 := by
  induction ss generalizing l acc with
  | nil => exact ⟨hl, lacks_reverse.mpr hacc⟩
  | cons s ss ih =>
    obtain ⟨hs, hrest⟩ := lacks_cons.mp hss
    have hmentions : s.tally x = 0 := by simpa using hs.mentions
    rw [declareOnto]
    split
    · next name init hd =>
      have hvar := declared?_lacks hmentions hd
      refine ih (fold_meet_hoisted _ ?_ hl) (lacks_cons.mpr ⟨hvar, hacc⟩) hrest
      simpa using hvar.mentions
    · exact ih (fold_meet_hoisted s hmentions hl) (lacks_cons.mpr ⟨hs, hacc⟩) hrest

theorem Lacks.declareLocals {ss : List Stmt} (h : Lacks x ss) : Lacks x (declareLocals ss) := by
  obtain ⟨hhoisted, hbody⟩ := declareOnto_lacks (l := {}) List.not_mem_nil .nil h
  refine lacks_append.mpr ⟨?_, hbody⟩
  rw [← List.mem_reverse] at hhoisted
  revert hhoisted
  generalize (declareOnto {} [] ss).2.hoisted.reverse = names
  intro hhoisted
  induction names with
  | nil => exact .nil
  | cons name names ih =>
    rw [List.mem_cons, not_or] at hhoisted
    have hinit : ∀ e ∈ (none : Option Expr), e.tally x = 0 := fun e he =>
      absurd he (Option.not_mem_none e)
    exact lacks_cons.mpr ⟨lacks_var (Ne.symm hhoisted.1) hinit, ih hhoisted.2⟩

structure Spares (x : String) (names : Renaming) : Prop where
  unnamed : names[x]? = none
  plain : ∀ (old new : String), names[old]? = some new → new.toList.head? ≠ some '$'

theorem head_varName (n : Nat) : ("var" ++ toString n).toList.head? = some 'v' := by
  rw [String.toList_append]
  rfl

theorem Spares.insert {names : Renaming} (h : Spares x names) {old : String} (hold : old ≠ x)
    (n : Nat) : Spares x (Std.TreeMap.insert names old ("var" ++ toString n)) := by
  refine ⟨?_, fun o new hnew => ?_⟩
  · rw [Std.TreeMap.getElem?_insert, if_neg]
    · exact h.unnamed
    · exact fun heq => hold (Std.LawfulEqCmp.eq_of_compare heq)
  · rw [Std.TreeMap.getElem?_insert] at hnew
    split at hnew
    · cases hnew
      rw [head_varName]
      decide
    · exact h.plain o new hnew

theorem renameOnto_lacks (hx : x.toList.head? = some '$') {names : Renaming} {acc ss : List Stmt}
    (hnames : Spares x names) (hacc : Lacks x acc) (hss : Lacks x ss) :
    Spares x (renameOnto names acc ss).2 ∧ Lacks x (renameOnto names acc ss).1 := by
  induction ss generalizing names acc with
  | nil => exact ⟨hnames, lacks_reverse.mpr hacc⟩
  | cons s ss ih =>
    obtain ⟨hs, hrest⟩ := lacks_cons.mp hss
    by_cases hvar : ∃ name init, s = .var name init
    · obtain ⟨name, init, rfl⟩ := hvar
      obtain ⟨hname, hinit⟩ := hs.of_var
      rw [renameOnto]
      split
      · have hnew : ("var" ++ toString (names.size + 1)) ≠ x := by
          rintro rfl
          rw [head_varName] at hx
          cases hx
        exact ih (hnames.insert hname _) (lacks_cons.mpr ⟨lacks_var hnew hinit, hacc⟩) hrest
      · exact ih hnames (lacks_cons.mpr ⟨hs, hacc⟩) hrest
    · rw [renameOnto_other fun name init h => hvar ⟨name, init, h⟩]
      exact ih hnames (lacks_cons.mpr ⟨hs, hacc⟩) hrest

theorem Spares.avoids {names : Renaming} (h : Spares x names) : Avoids x (renamed names) := by
  intro e e' he
  unfold renamed at he
  split at he
  · obtain ⟨new, hnew, rfl⟩ := Option.map_eq_some_iff.mp he
    have hnone : (Expr.variable { ‹Token› with text := new }).isPlaceholder x = false := by
      rw [Expr.isPlaceholder, Expr.placeholder?_of_text (h.plain _ _ hnew)]
      rfl
    exact ⟨hnone, by rw [Expr.tally_variable, hnone]; rfl⟩
  · cases he

/-- A local that making a body tidy rids it of: it is gone before names are given, no name stands
for it, and the tidy body has none of it either. -/
structure Rids (x : String) (ss : List Stmt) : Prop where
  before : Lacks x (declaredBody ss)
  unnamed : (renameOnto {} [] (declaredBody ss)).2[x]? = none
  after : Lacks x (tidy ss)

theorem rids_of_foldLoops {ss : List Stmt} (hx : x.toList.head? = some '$')
    (hss : Stmt.bindersAll ss = []) (h : Stmt.tallyAll x (foldLoops 0 [] ss).1 = 0) :
    Rids x ss := by
  have hbinders : ∀ b ∈ Stmt.bindersAll (foldLoops 0 [] ss).1, b.name ≠ x := by
    intro b hb hname
    rw [(foldLoops_binders 0 [] ss hss).2, items] at hb
    obtain ⟨n, -, rfl⟩ := List.mem_map.mp hb
    rw [← hname, String.toList_append] at hx
    cases hx
  have hbefore : Lacks x (declaredBody ss) :=
    Lacks.declareLocals (Lacks.dropReturn ⟨h, hbinders⟩)
  have hempty : Spares x {} := ⟨by simp, by simp⟩
  obtain ⟨hspares, hafter⟩ := renameOnto_lacks hx hempty .nil hbefore
  refine ⟨hbefore, hspares.unnamed, ?_, ?_⟩
  · have hle := Stmt.tallyAll_replace_le hspares.avoids (renameOnto {} [] (declaredBody ss)).1
    rw [hafter.mentions] at hle
    exact Nat.eq_zero_of_le_zero hle
  · have hsame : Stmt.bindersAll (tidy ss)
        = Stmt.bindersAll (renameOnto {} [] (declaredBody ss)).1 :=
      Stmt.bindersAll_replaceAll _ [] _
    rw [hsame]
    exact hafter.binders

/-- Hidden locals are gone, and every loop that was spelled out has become one. -/
theorem tidy_of_unfolds {hidden : String → Prop} {taken : List String} {a : List Flow}
    {ss : List Stmt} (hhidden : ∀ x, hidden x → x.toList.head? = some '$')
    (hss : Stmt.bindersAll ss = []) (h : Unfolds hidden [] taken a ss) :
    Flow.Folds a (Stmt.flows (foldLoops 0 [] ss).1) ∧ ∀ x, hidden x → Rids x ss := by
  obtain ⟨hfolds, hgone⟩ := foldLoops_of_unfolds hhidden h
  exact ⟨hfolds, fun x hx => rids_of_foldLoops (hhidden x hx) hss (hgone x hx)⟩

end Tidy

end

end Lss
