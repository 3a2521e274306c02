import Lss.Proofs.Vanished
import Lss.Proofs.Within

/-!
# Scopes of tidy bodies

A tidy body declares each of its locals once, at its own level, and mentions it only behind that.
Whatever else its variables are, they are parameters, globals or elements of the loops around them,
and no placeholder is left.
-/
namespace Lss

open Tidy

namespace Stmt

/-- Statements that declare locals, one after another: a local is known behind its declaration. -/
inductive Scoped : (String → Prop) → List Stmt → Prop
  | nil {V : String → Prop} : Scoped V []
  | statement {V : String → Prop} {s : Stmt} {ss : List Stmt} : s.Within V → Scoped V ss →
      Scoped V (s :: ss)
  | var {V : String → Prop} {name : Token} {init : Option Expr} {ss : List Stmt} :
      (∀ e ∈ init, e.Within V) → Scoped (fun x => V x ∨ x = name.text) ss →
      Scoped V (.var name init :: ss)

end Stmt

/-! Loops over collections. -/

namespace Tidy

variable {V : String → Prop}

/-- The left operand of an operator that is no access in a space. -/
theorem left_operand_within {e l r : Expr} {kind : TokenKind} (h : e.Within V)
    (ho : e.operands? kind = some (l, r)) (hscope : kind ≠ .access .scope)
    (hdynamic : kind ≠ .access .dynamicScope) : l.Within V := by
  have hu := h.ungrouped
  unfold Expr.operands? at ho
  split at ho
  · next l' op r' heq =>
    rw [heq] at hu
    split at ho
    · next hkind =>
      cases ho
      cases hu with
      | binary _ hl _ | member _ hl | dynamicMember _ hl _ => exact hl
      | scope hop => exact absurd (hkind.symm.trans hop) hscope
      | dynamicScope hop _ => exact absurd (hkind.symm.trans hop) hdynamic
    · cases ho
  · cases ho

theorem loopHead?_within {first second : Stmt} {head : LoopHead} (hs : second.Within V)
    (h : loopHead? first second = some head) : head.collection.Within V := by
  unfold loopHead? at h
  split at h
  · next m bound =>
    cases hs with
    | assign _ hbound =>
      obtain ⟨index, -, h⟩ := Option.bind_eq_some_iff.mp h
      split at h
      · cases h
      · obtain ⟨last, -, h⟩ := Option.bind_eq_some_iff.mp h
        obtain ⟨⟨length, one⟩, hlength, h⟩ := Option.bind_eq_some_iff.mp h
        dsimp only at h
        split at h
        · cases h
        · obtain ⟨⟨collection, property⟩, hcollection, h⟩ := Option.bind_eq_some_iff.mp h
          dsimp only at h
          split at h
          · cases h
            have hlength := left_operand_within hbound hlength nofun nofun
            exact (left_operand_within hlength hcollection nofun nofun).ungrouped
          · cases h
  · cases h

theorem loopBody?_within {head : LoopHead} {s : Stmt} {body : List Stmt} (hs : s.Within V)
    (h : loopBody? head s = some body) : ∀ x ∈ body, x.Within V := by
  unfold loopBody? at h
  split at h
  · cases hs with
    | while_ _ hbody =>
    cases hbody with
    | block hall =>
      split at h
      · split at h
        · cases h
          exact fun x hx => hall x ((List.dropLast_sublist _).subset hx)
        · cases h
      · cases h
  · cases h

/-- A variable for every element of the collection that is read. -/
theorem swaps_element (V : String → Prop) (collection : Expr) (index : String) {element : Token}
    (h : element.kind = .identifier) :
    Stmt.Swaps V (fun x => V x ∨ x = element.text) fun e =>
      if Expr.isElement collection index e then some (.variable element) else none := by
  refine fun X _ => ⟨fun e e' _ he => ?_, fun t _ hx _ => hx.imp_left .inl, rfl, fun t => ⟨t, rfl⟩,
    fun _ _ _ => rfl⟩
  split at he
  · cases he
    exact ⟨element, rfl, .name h (.inl (.inr rfl))⟩
  · cases he

theorem foreach?_within {element : Token} (he : element.kind = .identifier)
    {first second third : Stmt} (h₂ : second.Within V) (h₃ : third.Within V) {c : Expr}
    {body : List Stmt} (h : foreach? element first second third = some (c, body)) :
    c.Within V ∧ ∀ s ∈ body, s.Within fun x => V x ∨ x = element.text := by
  simp only [foreach?, Option.bind_eq_bind, Option.bind_eq_some_iff] at h
  obtain ⟨head, hhead, whole, hwhole, h⟩ := h
  split at h
  · cases h
  · split at h
    · cases h
    · cases h
      refine ⟨loopHead?_within h₂ hhead, fun s hs => ?_⟩
      rw [Stmt.replaceAll_eq] at hs
      obtain ⟨x, hx, rfl⟩ := List.mem_map.mp hs
      exact (loopBody?_within h₃ hwhole x hx).replace (swaps_element V _ _ he)

theorem head_itemName (n : Nat) : (itemName n).text.toList.head? ≠ some '$' := by
  show ("item" ++ toString n).toList.head? ≠ some '$'
  rw [String.toList_append]
  exact nofun

mutual

theorem foldLoops_within (V : String → Prop) (n : Nat) (acc ss : List Stmt)
    (hacc : ∀ s ∈ acc, s.Within V) (hss : ∀ s ∈ ss, s.Within V) :
    ∀ s ∈ (foldLoops n acc ss).1, s.Within V := by
  match ss with
  | [] =>
    rw [foldLoops]
    exact fun s hs => hacc s (List.mem_reverse.mp hs)
  | [a] =>
    have ha := foldInside_within V n a (hss a List.mem_cons_self)
    rw [foldLoops]
    exact fun s hs => List.forall_mem_cons.mpr ⟨ha, hacc⟩ s (List.mem_reverse.mp hs)
  | [a, b] =>
    have ha := foldInside_within V n a (hss a List.mem_cons_self)
    rw [foldLoops]
    exact foldLoops_within V _ _ [b] (List.forall_mem_cons.mpr ⟨ha, hacc⟩)
      fun s hs => hss s (List.mem_cons_of_mem a hs)
  | a :: b :: c :: rest =>
    rw [foldLoops]
    split
    · next collection body h =>
      have _lt := weightAll_foreach h
      have hb := hss b (List.mem_cons_of_mem a List.mem_cons_self)
      have hc := hss c (List.mem_cons_of_mem a (List.mem_cons_of_mem b List.mem_cons_self))
      obtain ⟨hcollection, hbody⟩ := foreach?_within rfl hb hc h
      have hinner := foldLoops_within (fun x => V x ∨ x = (itemName (n + 1)).text) (n + 1) [] body
        (fun _ h => absurd h List.not_mem_nil) hbody
      refine foldLoops_within V _ _ rest (List.forall_mem_cons.mpr
        ⟨.foreach (head_itemName _) hcollection (.block hinner), hacc⟩) fun s hs => hss s ?_
      exact List.mem_cons_of_mem a (List.mem_cons_of_mem b (List.mem_cons_of_mem c hs))
    · have ha := foldInside_within V n a (hss a List.mem_cons_self)
      exact foldLoops_within V _ _ (b :: c :: rest) (List.forall_mem_cons.mpr ⟨ha, hacc⟩)
        fun s hs => hss s (List.mem_cons_of_mem a hs)
termination_by Stmt.weightAll ss
decreasing_by all_goals (simp only [Stmt.weightAll] at *; omega)

theorem foldInside_within (V : String → Prop) (n : Nat) (s : Stmt) (hs : s.Within V) :
    (foldInside n s).1.Within V := by
  cases hs with
  | @block _ ss span h =>
    rw [foldInside]
    exact .block (foldLoops_within V n [] ss (fun _ h => absurd h List.not_mem_nil) h)
  | @if_ _ c body span hc hb =>
    rw [foldInside]
    exact .if_ hc (foldInside_within V n body hb)
  | @ifElse _ c body arm span hc hb ha =>
    rw [foldInside]
    exact .ifElse hc (foldInside_within V n body hb) (foldInside_within V _ arm ha)
  | @while_ _ c body hc hb =>
    rw [foldInside]
    exact .while_ hc (foldInside_within V n body hb)
  | @doWhile _ c body hb hc =>
    rw [foldInside]
    exact .doWhile (foldInside_within V n body hb) hc
  | @foreach _ x c body hn hc hb =>
    rw [foldInside]
    exact .foreach hn hc (foldInside_within _ n body hb)
  | expr he => simpa [foldInside] using .expr he
  | return_ hv => simpa [foldInside] using .return_ hv
  | assign ht hv => simpa [foldInside] using .assign ht hv
termination_by s.weight
decreasing_by all_goals (simp only [Stmt.weight] at *; omega)

end

end Tidy

/-! Declarations. -/

namespace Stmt

variable {V V' : String → Prop} {ss ts : List Stmt}

theorem Scoped.mono (h : Scoped V ss) (hV : ∀ x, V x → V' x) : Scoped V' ss := by
  induction h generalizing V' with
  | nil => exact .nil
  | statement hs _ ih => exact .statement (hs.mono hV) (ih hV)
  | var hi _ ih =>
    exact .var (fun e he => (hi e he).mono hV) (ih fun x hx => hx.imp_left (hV x))

/-- Declarations without values in front of statements. -/
theorem Scoped.declare {names : List String} (h : Scoped (fun x => V x ∨ x ∈ names) ss) :
    Scoped V (names.map (fun name => Stmt.var (.identifier name) none) ++ ss) := by
  induction names generalizing V with
  | nil => simpa using h
  | cons name names ih =>
    refine .var (fun e he => absurd he (Option.not_mem_none e)) (ih (h.mono fun x hx => ?_))
    rw [List.mem_cons, ← or_assoc] at hx
    exact hx

end Stmt

namespace Tidy

variable {V : String → Prop} {l : Locals}

/-- What is mentioned was met. -/
theorem seen_of_tally {x : String} {s : Stmt} (h : 0 < s.tally x) :
    (s.fold Locals.meet l).seen.contains x := by
  -- mentions are counted in the same walk
  let both (b : Locals × Nat) (e : Expr) : Locals × Nat := (b.1.meet e, tallyStep x b.2 e)
  have hleft := Stmt.fold_hom (f := both) (h := Prod.fst) (g := Locals.meet) (fun _ _ => rfl) s
    (l, 0)
  have hright := Stmt.fold_hom (f := both) (h := Prod.snd) (g := tallyStep x) (fun _ _ => rfl) s
    (l, 0)
  have hkeeps := s.fold_keeps (f := both) (P := fun b => 0 < b.2 → b.1.seen.contains x)
    (b := (l, 0)) (fun b e hb hpos => ?_) nofun
  · rw [← hleft]
    refine hkeeps ?_
    rw [hright]
    exact h
  · by_cases he : e.isPlaceholder x
    · rw [Expr.isPlaceholder_iff] at he
      dsimp only [both]
      rw [Locals.meet, he]
      dsimp only
      split
      · next hseen => exact hseen
      · simp
    · refine Locals.grows_meet b.1 e x (hb ?_)
      dsimp only [both, tallyStep] at hpos
      rwa [Bool.eq_false_iff.mpr he, Bool.toNat_false, Nat.add_zero] at hpos

structure Locals.Goes (l l' : Locals) : Prop where
  hoisted : l.hoisted ⊆ l'.hoisted
  seen : ∀ x, l'.seen.contains x → l.seen.contains x ∨ x ∈ l'.hoisted

theorem Locals.Goes.meet {l l' : Locals} (h : l.Goes l') (e : Expr) : l.Goes (l'.meet e) := by
  unfold Locals.meet
  split
  · next name _ =>
    split
    · exact h
    · refine ⟨List.subset_cons_of_subset name h.hoisted, fun x hx => ?_⟩
      simp only [Std.TreeSet.contains_insert, Bool.or_eq_true] at hx
      rcases hx with heq | hx
      · exact .inr (List.mem_cons.mpr (.inl (Std.LawfulEqCmp.eq_of_compare (eq_of_beq heq)).symm))
      · exact (h.seen x hx).imp_right (List.mem_cons_of_mem name)
  · exact h

theorem Locals.goes_fold (l : Locals) (s : Stmt) : l.Goes (s.fold Locals.meet l) :=
  s.fold_keeps (P := l.Goes) (fun _ e h => h.meet e) ⟨List.Subset.refl _, fun _ hx => .inl hx⟩

theorem declareOnto_eq (l : Locals) (acc ss : List Stmt) : declareOnto l acc ss =
    (acc.reverse ++ (declareOnto l [] ss).1, (declareOnto l [] ss).2) := by
  induction ss generalizing l acc with
  | nil => simp [declareOnto]
  | cons s ss ih =>
    rw [declareOnto, declareOnto]
    split
    · next name init _ =>
      rw [ih, ih _ [_]]
      simp
    · rw [ih, ih _ [s]]
      simp

theorem hoisted_subset (l : Locals) (ss : List Stmt) :
    l.hoisted ⊆ (declareOnto l [] ss).2.hoisted := by
  induction ss generalizing l with
  | nil => exact List.Subset.refl _
  | cons s ss ih =>
    rw [declareOnto]
    split
    · next name init _ =>
      rw [declareOnto_eq]
      have hgoes := Locals.goes_fold { l with seen := l.seen.insert name }
        (.var (.identifier name) init)
      exact List.Subset.trans hgoes.hoisted (ih _)
    · rw [declareOnto_eq]
      exact List.Subset.trans (l.goes_fold s).hoisted (ih _)

theorem declared?_eq_some {s : Stmt} {name : String} {init : Option Expr}
    (h : declared? l s = some (name, init)) :
    ∃ t v, s = .assign t v ∧ v.tally name = 0 ∧ ∀ e ∈ init, e = v := by
  unfold declared? at h
  split at h
  · next t v =>
    split at h
    · split at h
      · cases h
      · next hnot =>
        cases h
        rw [Bool.or_eq_true, not_or, Bool.not_eq_true, Bool.not_eq_true] at hnot
        have hany : v.any (·.isPlaceholder name) = decide (0 < v.tally name) :=
          Stmt.anyExpr_isPlaceholder name [.expr v]
        rw [hnot.2, eq_comm, decide_eq_false_iff_not, Nat.not_lt, Nat.le_zero] at hany
        refine ⟨t, v, rfl, hany, fun e he => ?_⟩
        split at he <;> cases he
        rfl
    · cases h
  · cases h

/-- The value of a declaration mentions other locals only. -/
theorem declared?_tally {s : Stmt} {name : String} {init : Option Expr}
    (h : declared? l s = some (name, init)) : ∀ e ∈ init, e.tally name = 0 := by
  obtain ⟨t, v, -, hzero, hinit⟩ := declared?_eq_some h
  intro e he
  rw [hinit e he]
  exact hzero

theorem declared?_within {s : Stmt} {name : String} {init : Option Expr} (hs : s.Within V)
    (h : declared? l s = some (name, init)) : ∀ e ∈ init, e.Within V := by
  obtain ⟨t, v, rfl, -, hinit⟩ := declared?_eq_some h
  intro e he
  cases hs with
  | assign _ hv =>
    rw [hinit e he]
    exact hv

theorem declareOnto_scoped {W : String → Prop} {ss : List Stmt}
    (hss : ∀ s ∈ ss, s.Within fun x => V x ∨ x.toList.head? = some '$')
    (hV : ∀ x, V x → W x) (hl : ∀ x, l.seen.contains x → W x)
    (hhoisted : ∀ x ∈ (declareOnto l [] ss).2.hoisted, W x) :
    Stmt.Scoped W (declareOnto l [] ss).1 := by
  induction ss generalizing l W with
  | nil => exact .nil
  | cons s ss ih =>
    obtain ⟨hs, hrest⟩ := List.forall_mem_cons.mp hss
    rw [declareOnto] at hhoisted ⊢
    split
    · next name init hd =>
      rw [hd] at hhoisted
      dsimp only at hhoisted
      rw [declareOnto_eq] at hhoisted ⊢
      have hgoes := Locals.goes_fold { l with seen := l.seen.insert name }
        (.var (.identifier name) init)
      have hseen : ∀ x, ((Stmt.var (.identifier name) init).fold Locals.meet
          { l with seen := l.seen.insert name }).seen.contains x → W x ∨ x = name := by
        intro x hx
        rcases hgoes.seen x hx with hx | hx
        · simp only [Std.TreeSet.contains_insert, Bool.or_eq_true] at hx
          rcases hx with heq | hx
          · exact .inr (Std.LawfulEqCmp.eq_of_compare (eq_of_beq heq)).symm
          · exact .inl (hl x hx)
        · exact .inl (hhoisted x (hoisted_subset _ ss hx))
      refine .var (fun e he => ?_) (ih hrest (fun x hx => .inl (hV x hx)) hseen
        fun x hx => .inl (hhoisted x hx))
      have hzero := declared?_tally hd e he
      have hwithin := declared?_within hs hd e he
      cases he
      refine hwithin.restrict fun x hx hp => ?_
      rcases hx with hx | hx
      · exact hV x hx
      · refine (hseen x (seen_of_tally (hp hx))).resolve_right ?_
        rintro rfl
        exact Nat.lt_irrefl 0 (hzero ▸ hp hx)
    · next hd =>
      rw [hd] at hhoisted
      dsimp only at hhoisted
      rw [declareOnto_eq] at hhoisted ⊢
      have hgoes := l.goes_fold s
      have hseen : ∀ x, (s.fold Locals.meet l).seen.contains x → W x := fun x hx =>
        (hgoes.seen x hx).elim (hl x) fun hx => hhoisted x (hoisted_subset _ ss hx)
      refine .statement (hs.restrict fun x hx hp => ?_) (ih hrest hV hseen hhoisted)
      rcases hx with hx | hx
      · exact hV x hx
      · exact hseen x (seen_of_tally (hp hx))

theorem declareLocals_scoped {ss : List Stmt}
    (hss : ∀ s ∈ ss, s.Within fun x => V x ∨ x.toList.head? = some '$') :
    Stmt.Scoped V (declareLocals ss) := by
  refine Stmt.Scoped.declare (declareOnto_scoped hss (fun _ hx => .inl hx) (by simp) fun x hx => ?_)
  exact .inr (List.mem_reverse.mpr hx)

end Tidy

/-! New names. -/

namespace Tidy

def newName (names : Renaming) (x : String) : String := (names[x]?).getD x

def redeclare (names : Renaming) : Stmt → Stmt
  | .var name init => .var { name with text := newName names name.text } init
  | s => s

/-- Placeholders have new names that are numbered, each of them another one. -/
structure Numbers (names : Renaming) : Prop where
  keys : ∀ x : String, x ∈ names → x.toList.head? = some '$'
  values : ∀ x new : String, names[x]? = some new →
    ∃ k < names.size, new = "var" ++ toString (k + 1)
  injective : ∀ x y new : String, names[x]? = some new → names[y]? = some new → x = y

theorem Numbers.insert {names : Renaming} (h : Numbers names) {old : String}
    (hhead : old.toList.head? = some '$') (hnew : old ∉ names) :
    Numbers (Std.TreeMap.insert names old ("var" ++ toString (names.size + 1))) := by
  have hsize : (Std.TreeMap.insert names old ("var" ++ toString (names.size + 1))).size
      = names.size + 1 := by
    rw [Std.TreeMap.size_insert, if_neg (mt Std.TreeMap.mem_iff_contains.mpr hnew)]
  have hget (x new : String)
      (hx : (Std.TreeMap.insert names old ("var" ++ toString (names.size + 1)))[x]? = some new) :
      x = old ∧ new = "var" ++ toString (names.size + 1) ∨ names[x]? = some new := by
    rw [Std.TreeMap.getElem?_insert] at hx
    split at hx
    · next heq => exact .inl ⟨(Std.LawfulEqCmp.eq_of_compare heq).symm, (Option.some.inj hx).symm⟩
    · exact .inr hx
  have hlate (x : String) (hx : names[x]? = some ("var" ++ toString (names.size + 1))) : False := by
    obtain ⟨k, hk, heq⟩ := h.values x _ hx
    have := append_toString_injective "var" heq
    omega
  refine ⟨fun x hx => ?_, fun x new hx => ?_, fun x y new hx hy => ?_⟩
  · rcases Std.TreeMap.mem_insert.mp hx with heq | hx
    · rwa [← Std.LawfulEqCmp.eq_of_compare heq]
    · exact h.keys x hx
  · rw [hsize]
    rcases hget x new hx with ⟨-, rfl⟩ | hx
    · exact ⟨names.size, Nat.lt_succ_self _, rfl⟩
    · obtain ⟨k, hk, rfl⟩ := h.values x new hx
      exact ⟨k, Nat.lt_succ_of_lt hk, rfl⟩
  · rcases hget x new hx with ⟨rfl, rfl⟩ | hx'
    · rcases hget y _ hy with ⟨rfl, -⟩ | hy'
      · rfl
      · exact (hlate y hy').elim
    · rcases hget y new hy with ⟨rfl, rfl⟩ | hy'
      · exact (hlate x hx').elim
      · exact h.injective x y new hx' hy'

/-- Names of other locals stay as they are. -/
theorem renameOnto_other_name {names : Renaming} {acc ss : List Stmt} {x : String}
    (h : x ∉ Binder.names .declared (Stmt.bindersAll ss)) :
    (renameOnto names acc ss).2[x]? = names[x]? := by
  induction ss generalizing names acc with
  | nil => rfl
  | cons s ss ih =>
    rw [Stmt.bindersAll, Binder.names_append, List.mem_append, not_or] at h
    by_cases hvar : ∃ name init, s = .var name init
    · obtain ⟨name, init, rfl⟩ := hvar
      have hne : name.text ≠ x := by
        rintro rfl
        exact h.1 List.mem_cons_self
      rw [renameOnto]
      split
      · rw [ih h.2, Std.TreeMap.getElem?_insert, if_neg]
        exact fun heq => hne (Std.LawfulEqCmp.eq_of_compare heq)
      · exact ih h.2
    · rw [renameOnto_other fun name init h => hvar ⟨name, init, h⟩]
      exact ih h.2

/-- Every declaration gets its new name, and nothing else changes. -/
theorem renameOnto_redeclares {names : Renaming} {acc ss : List Stmt} (htop : ∀ s ∈ ss, AtTop s)
    (hnodup : (Binder.names .declared (Stmt.bindersAll ss)).Nodup)
    (hnew : ∀ x ∈ Binder.names .declared (Stmt.bindersAll ss), x ∉ names) (hnames : Numbers names) :
    (renameOnto names acc ss).1
        = acc.reverse ++ ss.map (redeclare (renameOnto names acc ss).2) ∧
      Numbers (renameOnto names acc ss).2 ∧
      ∀ x ∈ Binder.names .declared (Stmt.bindersAll ss), x ∈ (renameOnto names acc ss).2 := by
  induction ss generalizing names acc with
  | nil => exact ⟨(List.append_nil _).symm, hnames, nofun⟩
  | cons s ss ih =>
    obtain ⟨hs, hrest⟩ := List.forall_mem_cons.mp htop
    rw [Stmt.bindersAll, Binder.names_append] at hnodup hnew ⊢
    rcases hs with hs | ⟨old, init, rfl, hold⟩
    · rw [hs, List.nil_append] at hnodup hnew ⊢
      have hvar : ∀ name init, s ≠ .var name init := by
        rintro name init rfl
        cases hs
      have hsame (names : Renaming) : redeclare names s = s := by
        unfold redeclare
        split
        · exact absurd rfl (hvar _ _)
        · rfl
      rw [renameOnto_other hvar]
      obtain ⟨hmap, hnumbers, hmem⟩ := ih hrest hnodup hnew hnames
      refine ⟨?_, hnumbers, hmem⟩
      rw [hmap, List.map_cons, hsame]
      simp
    · obtain ⟨hfresh, hnodup⟩ := List.nodup_cons.mp hnodup
      have hnone : old ∉ names := hnew old List.mem_cons_self
      have hlater := hnames.insert hold hnone
      rw [renameOnto_placeholder hold]
      generalize hnext : "var" ++ toString (names.size + 1) = next at hlater ⊢
      have hstill : ∀ x ∈ Binder.names .declared (Stmt.bindersAll ss),
          x ∉ Std.TreeMap.insert names old next := by
        intro x hx hmem
        rcases Std.TreeMap.mem_insert.mp hmem with heq | hmem
        · rw [Std.LawfulEqCmp.eq_of_compare heq] at hfresh
          exact hfresh hx
        · exact hnew x (List.mem_cons_of_mem _ hx) hmem
      obtain ⟨hmap, hnumbers, hmem⟩ :=
        @ih (Std.TreeMap.insert names old next) (.var (.identifier next) init :: acc) hrest hnodup
          hstill hlater
      have hget : (renameOnto (Std.TreeMap.insert names old next)
          (.var (.identifier next) init :: acc) ss).2[old]? = some next := by
        rw [renameOnto_other_name (x := old) hfresh, Std.TreeMap.getElem?_insert_self]
      have hdeclared : redeclare (renameOnto (Std.TreeMap.insert names old next)
          (.var (.identifier next) init :: acc) ss).2 (.var (.identifier old) init)
            = .var (.identifier next) init := by
        rw [redeclare, newName, show (Token.identifier old).text = old from rfl, hget]
        rfl
      refine ⟨?_, hnumbers, fun x hx => ?_⟩
      · rw [hmap, List.map_cons, hdeclared]
        simp
      · rcases List.mem_cons.mp hx with rfl | hx
        · rw [Std.TreeMap.mem_iff_isSome_getElem?, hget]
          rfl
        · exact hmem x hx

/-- Renaming takes variables to their new names. -/
theorem swaps_renamed {V V' : String → Prop} {names : Renaming} (hnames : Numbers names)
    (hV : ∀ x, V x → V' (newName names x)) : Stmt.Swaps V V' (renamed names) := by
  have hnone {x : String} (hx : x.toList.head? ≠ some '$') : names[x]? = none :=
    Std.TreeMap.getElem?_eq_none fun hmem => hx (hnames.keys x hmem)
  have hthis : renamed names .this = none := by
    rw [Expr.this, renamed, hnone (by decide)]
    rfl
  refine fun X hX => ⟨fun e e' he hr => ?_, fun t _ hx hr => ?_, hthis, fun t => ?_,
    fun _ _ _ => rfl⟩
  · cases he with
    | @name t hk hx =>
      obtain ⟨new, hnew, rfl⟩ := Option.map_eq_some_iff.mp hr
      refine ⟨_, rfl, .name hk (.inl ?_)⟩
      have hx := hV t.text (hx.resolve_right fun hx => ?_)
      · rwa [newName, hnew, Option.getD_some] at hx
      · rw [hnone (hX _ hx)] at hnew
        cases hnew
    | this =>
      rw [hthis] at hr
      cases hr
    | _ => cases hr
  · refine hx.imp_left fun hx => ?_
    have hx := hV t.text hx
    rwa [newName, Option.map_eq_none_iff.mp hr, Option.getD_none] at hx
  · rw [Expr.replace, renamed]
    cases names[t.text]? with
    | none => exact ⟨t, rfl⟩
    | some new => exact ⟨_, rfl⟩

theorem redeclare_within {V : String → Prop} {names : Renaming} {s : Stmt} (hs : s.Within V) :
    redeclare names s = s := by
  cases hs <;> rfl

theorem Scoped.rename {V V' : String → Prop} {names : Renaming} {ss : List Stmt}
    (hnames : Numbers names) (h : Stmt.Scoped V ss) (hV : ∀ x, V x → V' (newName names x)) :
    Stmt.Scoped V' ((ss.map (redeclare names)).map (Stmt.replace (renamed names))) := by
  induction h generalizing V' with
  | nil => exact .nil
  | statement hs _ ih =>
    rw [List.map_cons, List.map_cons, redeclare_within hs]
    exact .statement (hs.replace (swaps_renamed hnames hV)) (ih hV)
  | @var V name init ss hinit _ ih =>
    refine .var ((swaps_renamed hnames hV).option hinit) (ih ?_)
    rintro x (hx | rfl)
    · exact .inl (hV x hx)
    · exact .inr rfl

end Tidy

section

variable {V : String → Prop} {ss : List Stmt}

def Tidy.naming (ss : List Stmt) : Renaming := (renameOnto {} [] (declaredBody ss)).2

/-- The locals of a body have new names, and the body has them for its declarations. -/
theorem Tidy.naming_spec (hss : Stmt.bindersAll ss = []) :
    (renameOnto {} [] (declaredBody ss)).1 = (declaredBody ss).map (redeclare (naming ss)) ∧
      Numbers (naming ss) ∧
      ∀ x ∈ Binder.names .declared (Stmt.bindersAll (declaredBody ss)), x ∈ naming ss := by
  obtain ⟨hnodup, htop, -⟩ := declaredBody_once hss
  have hempty : Numbers {} := ⟨by simp, by simp, by simp⟩
  exact @renameOnto_redeclares {} [] _ htop hnodup (by simp) hempty

/-- Behind its declaration each local is known in a tidy body. -/
theorem tidy_scoped (hss : Stmt.bindersAll ss = [])
    (h : ∀ s ∈ ss, s.Within fun x => V x ∨ x.toList.head? = some '$') :
    Stmt.Scoped (fun x => V x ∧ x.toList.head? ≠ some '$') (tidy ss) := by
  obtain ⟨hmap, hnumbers, -⟩ := naming_spec hss
  have hfolded := foldLoops_within _ 0 [] ss (fun _ hs => absurd hs List.not_mem_nil) h
  have hdeclared : Stmt.Scoped (fun x => V x ∧ x.toList.head? ≠ some '$') (declaredBody ss) := by
    refine declareLocals_scoped fun s hs => (hfolded s (dropReturn_subset _ hs)).mono fun x hx => ?_
    by_cases hhead : x.toList.head? = some '$'
    · exact .inr hhead
    · exact .inl ⟨hx.resolve_right hhead, hhead⟩
  have htidy : tidy ss
      = ((declaredBody ss).map (redeclare (naming ss))).map
          (Stmt.replace (renamed (naming ss))) := by
    rw [← hmap]
    exact Stmt.replaceAll_eq _ [] _
  rw [htidy]
  refine Scoped.rename hnumbers hdeclared fun x hx => ?_
  rw [newName, Std.TreeMap.getElem?_eq_none fun hmem => hx.2 (hnumbers.keys x hmem)]
  exact hx

end

/-! Placeholders are gone. -/

namespace Tidy

variable {x : String}

/-- What is mentioned after declaring was known before, or is declared there or in front. -/
theorem declareOnto_mentions {l : Locals} {ss : List Stmt}
    (h : 0 < Stmt.tallyAll x (declareOnto l [] ss).1) :
    l.seen.contains x ∨ x ∈ (declareOnto l [] ss).2.hoisted ∨
      x ∈ Binder.names .declared (Stmt.bindersAll (declareOnto l [] ss).1) := by
  induction ss generalizing l with
  | nil => exact absurd h (Nat.lt_irrefl 0)
  | cons s ss ih =>
    have key {l' : Locals} {t : Stmt} (hmention : 0 < t.tally x → l'.seen.contains x)
        (hseen : l'.seen.contains x → l.seen.contains x ∨ x ∈ (declareOnto l' [] ss).2.hoisted ∨
          x ∈ Binder.names .declared t.binders)
        (h : 0 < Stmt.tallyAll x (t :: (declareOnto l' [] ss).1)) : l.seen.contains x ∨
          x ∈ (declareOnto l' [] ss).2.hoisted ∨
            x ∈ Binder.names .declared (Stmt.bindersAll (t :: (declareOnto l' [] ss).1)) := by
      rw [Stmt.bindersAll, Binder.names_append, List.mem_append]
      rw [Stmt.tallyAll_cons] at h
      rcases Nat.add_pos_iff_pos_or_pos.mp h with h | h
      · exact (hseen (hmention h)).imp_right (Or.imp_right .inl)
      · rcases ih h with hx | hx | hx
        · exact (hseen hx).imp_right (Or.imp_right .inl)
        · exact .inr (.inl hx)
        · exact .inr (.inr (.inr hx))
    rw [declareOnto] at h ⊢
    split
    · next name init hd =>
      rw [hd] at h
      dsimp only at h
      rw [declareOnto_eq] at h ⊢
      have hgoes := Locals.goes_fold { l with seen := l.seen.insert name }
        (.var (.identifier name) init)
      refine key (t := .var (.identifier name) init) seen_of_tally (fun hx => ?_) h
      rcases hgoes.seen x hx with hx | hx
      · simp only [Std.TreeSet.contains_insert, Bool.or_eq_true] at hx
        rcases hx with heq | hx
        · rw [← Std.LawfulEqCmp.eq_of_compare (eq_of_beq heq)]
          exact .inr (.inr List.mem_cons_self)
        · exact .inl hx
      · exact .inr (.inl (hoisted_subset _ ss hx))
    · next hd =>
      rw [hd] at h
      dsimp only at h
      rw [declareOnto_eq] at h ⊢
      refine key (t := s) seen_of_tally (fun hx => ?_) h
      exact ((l.goes_fold s).seen x hx).imp_right fun hx => .inl (hoisted_subset _ ss hx)

/-- Whatever local is mentioned in a body is declared in it. -/
theorem declareLocals_mentions {ss : List Stmt} (h : 0 < Stmt.tallyAll x (declareLocals ss)) :
    x ∈ Binder.names .declared (Stmt.bindersAll (declareLocals ss)) := by
  have hnone (names : List String) : Stmt.tallyAll x (names.map fun name =>
      Stmt.var (.identifier name) none) = 0 := by
    induction names with
    | nil => rfl
    | cons name names ih =>
      rw [List.map_cons, Stmt.tallyAll_cons, ih]
      rfl
  unfold declareLocals at h ⊢
  dsimp only at h ⊢
  rw [Stmt.tallyAll_append, hnone, Nat.zero_add] at h
  rw [Stmt.bindersAll_append, bindersAll_hoisted, Binder.names_append, Binder.names_map, if_pos rfl,
    List.mem_append]
  rcases declareOnto_mentions h with hx | hx | hx
  · simp at hx
  · exact .inl (List.mem_reverse.mpr hx)
  · exact .inr hx

theorem tallyAll_redeclare (names : Renaming) (ss : List Stmt) :
    Stmt.tallyAll x (ss.map (redeclare names)) = Stmt.tallyAll x ss := by
  have hsame (s : Stmt) : (redeclare names s).tally x = s.tally x := by
    unfold redeclare
    split
    · next init =>
      cases init <;> rfl
    · rfl
  rw [Stmt.tallyAll_eq, Stmt.tallyAll_eq, List.map_map]
  exact congrArg List.sum (List.map_congr_left fun s _ => hsame s)

theorem Numbers.avoids {names : Renaming} (h : Numbers names) : Avoids x (renamed names) := by
  intro e e' he
  unfold renamed at he
  split at he
  · obtain ⟨new, hnew, rfl⟩ := Option.map_eq_some_iff.mp he
    obtain ⟨k, -, rfl⟩ := h.values _ _ hnew
    have hnone : (Expr.variable { ‹Token› with
        text := "var" ++ toString (k + 1) }).isPlaceholder x = false := by
      rw [Expr.isPlaceholder, Expr.placeholder?_of_text (by rw [head_varName]; decide)]
      rfl
    exact ⟨hnone, by rw [Expr.tally_variable, hnone]; rfl⟩
  · cases he

theorem head_numbered {stem : String} {n : Nat} {c : Char} (hstem : stem.toList.head? = some c)
    {y : String} (hy : y ∈ numbered stem n) : y.toList.head? = some c := by
  obtain ⟨i, -, rfl⟩ := List.mem_map.mp hy
  rw [String.toList_append, List.head?_append, hstem]
  rfl

/-- No placeholder is left, neither mentioned nor declared. -/
theorem tidy_lacks {ss : List Stmt} (hss : Stmt.bindersAll ss = [])
    (hx : x.toList.head? = some '$') : Stmt.Lacks x (tidy ss) := by
  obtain ⟨hmap, hnumbers, hdeclared⟩ := naming_spec hss
  have havoids := hnumbers.avoids (x := x)
  constructor
  · show Stmt.tallyAll x (Stmt.replaceAll (renamed (naming ss)) []
      (renameOnto {} [] (declaredBody ss)).1) = 0
    by_cases hmem : x ∈ naming ss
    · refine Stmt.tallyAll_replace_eq_zero havoids (fun t ht => ?_) _
      have htext := Expr.eq_of_placeholder?_variable (Expr.isPlaceholder_iff.mp ht)
      rw [renamed, Option.isSome_map, htext]
      exact Std.TreeMap.mem_iff_isSome_getElem?.mp hmem
    · refine Nat.eq_zero_of_le_zero (Nat.le_trans (Stmt.tallyAll_replace_le havoids _) ?_)
      rw [hmap, tallyAll_redeclare]
      exact Nat.le_of_not_lt fun hpos => hmem (hdeclared x (declareLocals_mentions hpos))
  · intro b hb
    obtain ⟨⟨k, hk⟩, m, hm⟩ := tidy_binders hss
    rintro rfl
    obtain ⟨role, name⟩ := b
    have hmem := Binder.mem_names.mpr hb
    cases role with
    | parameter =>
      rw [Stmt.names_parameter_bindersAll] at hmem
      cases hmem
    | declared =>
      rw [hk] at hmem
      cases hx.symm.trans (head_numbered (by rfl) hmem)
    | element =>
      rw [hm] at hmem
      cases hx.symm.trans (head_numbered (by rfl) hmem)

end Tidy

end Lss
