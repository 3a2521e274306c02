import Lss.Proofs.Formed
import Lss.Tree.Traverse

/-!
# Formed trees rewritten

A variable can stand wherever a part of a formed tree stands, so putting variables for parts keeps
trees formed. Names of members are variables too, and must be left alone.
-/
namespace Lss

section

variable {N N' : String → Prop} {A B : Prop}

theorem Expr.Formed.mono (hN : ∀ text, N text → N' text) {e : Expr} (h : e.Formed N A B) :
    e.Formed N' A B := by
  induction h with
  | literal hk hs => exact .literal hk hs
  | signed hk ht hs => exact .signed hk ht hs
  | name hk hn => exact .name hk (hN _ hn)
  | this hk hs => exact .this hk hs
  | grouping _ ih => exact .grouping ih
  | unary hop hs hp hb _ ih => exact .unary hop hs hp hb ih
  | binary hk hs hl hr _ _ ihl ihr => exact .binary hk hs hl hr ihl ihr
  | member hk hs hp ht hts _ ih => exact .member hk hs hp ht hts ih
  | scope hk hs hp ht hts _ ih => exact .scope hk hs hp ht hts ih
  | dynamic hk hs hl hr _ _ ihl ihr => exact .dynamic hk hs hl hr ihl ihr
  | index hp _ _ iha ihi => exact .index hp iha ihi
  | array _ ih => exact .array ih
  | call hp hb hlen _ _ ihf ih => exact .call hp hb hlen ihf ih
  | new hk hs => exact .new hk hs
  | construct hk hs hlen _ ih => exact .construct hk hs hlen ih

theorem Stmt.Formed.mono (hN : ∀ text, N text → N' text) {s : Stmt} (h : s.Formed N A B) :
    s.Formed N' A B := by
  induction h with
  | block _ ih => exact .block ih
  | expr he => exact .expr (he.mono hN)
  | return_ hv => exact .return_ fun e he => (hv e he).mono hN
  | if_ hc _ ih => exact .if_ (hc.mono hN) ih
  | ifElse hc _ hd _ ihb iha => exact .ifElse (hc.mono hN) ihb hd iha
  | while_ hc _ ih => exact .while_ (hc.mono hN) ih
  | doWhile _ hc ih => exact .doWhile ih (hc.mono hN)
  | foreach hk hx hc _ ih => exact .foreach hk hx (hc.mono hN) ih
  | assign ht hv => exact .assign (ht.mono hN) (hv.mono hN)
  | var hk hn hi => exact .var hk hn fun e he => (hi e he).mono hN

end

/-! Parts replaced by variables. -/

/-- What `f` gives for a part of a formed expression is a variable with a name that `N'` allows,
and where it gives nothing for a variable, `N'` allows its name. -/
structure Puts (f : Expr → Option Expr) (N N' : String → Prop) (A : Prop) : Prop where
  results : ∀ e e', e.Formed N A False → f e = some e' →
    ∃ t, e' = .variable t ∧ t.kind = .identifier ∧ N' t.text
  others : ∀ t, t.kind = .identifier → N t.text → f (.variable t) = none → N' t.text
  words : ∀ t, t.Spelled → t.kind.isMark = false → f (.variable t) = none

namespace Expr

theorem power_le (e : Expr) : e.power ≤ 14 := by
  cases e with
  | literal t =>
    rw [power]
    split <;> decide
  | binary l op r =>
    cases hk : op.kind with
    | binary o =>
      rw [power, hk]
      exact Nat.le_of_lt (Nat.lt_trans o.precedence_lt (by decide))
    | _ => simp [power, hk, TokenKind.power]
  | _ => simp [power]

theorem replaceAll_eq (f : Expr → Option Expr) (acc es : List Expr) :
    replaceAll f acc es = acc.reverse ++ es.map (replace f) := by
  induction es generalizing acc with
  | nil => simp [replaceAll]
  | cons e es ih => simp [replaceAll, ih]

structure Fits (N : String → Prop) (A : Prop) (e e' : Expr) : Prop where
  formed : e'.Formed N A False
  power : e.power ≤ e'.power
  hold : e.hold ≤ e'.hold
  endsBare : e.endsBare = false → e'.endsBare = false

variable {N N' : String → Prop} {A : Prop} {f : Expr → Option Expr} {e e' : Expr}

theorem Fits.getD (hf : Puts f N N' A) (h : e.Formed N A False) (h' : Fits N' A e e') :
    Fits N' A e ((f e).getD e') := by
  cases hfe : f e with
  | none => exact h'
  | some v =>
    obtain ⟨t, rfl, hk, hn⟩ := hf.results e v h hfe
    exact ⟨.name hk hn, e.power_le, e.hold_le, fun _ => rfl⟩

/-- A variable that is no name of a program or of a member stays. -/
theorem replace_word (hf : Puts f N N' A) {t : Token} (h : t.Spelled)
    (hk : t.kind.isMark = false) : replace f (.variable t) = .variable t := by
  rw [replace, hf.words t h hk, Option.getD_none]

theorem Formed.replace (hf : Puts f N N' A) (h : e.Formed N A False) :
    Fits N' A e (e.replace f) := by
  induction h with
  | literal hk hs =>
    exact .getD hf (.literal hk hs) ⟨.literal hk hs, Nat.le_refl _, Nat.le_refl _, id⟩
  | signed hk ht hs =>
    exact .getD hf (.signed hk ht hs) ⟨.signed hk ht hs, Nat.le_refl _, Nat.le_refl _, id⟩
  | @name t hk hn =>
    rw [Expr.replace]
    cases hft : f (.variable t) with
    | none => exact ⟨.name hk (hf.others t hk hn hft), Nat.le_refl _, Nat.le_refl _, id⟩
    | some v =>
      obtain ⟨t', rfl, hk', hn'⟩ := hf.results _ v (.name hk hn) hft
      exact ⟨.name hk' hn', Nat.le_refl _, Nat.le_refl _, id⟩
  | this hk hs =>
    rw [replace_word hf hs (by rw [hk]; rfl)]
    exact ⟨.this hk hs, Nat.le_refl _, Nat.le_refl _, id⟩
  | grouping he ih =>
    exact .getD hf (.grouping he) ⟨.grouping ih.formed, Nat.le_refl _, Nat.le_refl _, id⟩
  | unary hop hs hp hb he ih =>
    refine .getD hf (.unary hop hs hp hb he) ⟨?_, Nat.le_refl _, Nat.le_refl _, id⟩
    exact .unary hop hs (Nat.le_trans hp ih.power) nofun ih.formed
  | binary hk hs hl hr hfl hfr ihl ihr =>
    refine .getD hf (.binary hk hs hl hr hfl hfr) ⟨?_, Nat.le_refl _, Nat.le_refl _, fun _ => ?_⟩
    · exact .binary hk hs (Nat.lt_of_lt_of_le hl ihl.hold) (Nat.le_trans hr ihr.power) ihl.formed
        ihr.formed
    · rw [endsBare, hk]
      rfl
  | @member l op t hk hs hp ht hts hl ih =>
    refine .getD hf (.member hk hs hp ht hts hl) ⟨?_, Nat.le_refl _, Nat.le_refl _, fun _ => ?_⟩
    · rw [replace_word hf hts (Spells.isMark_of_name ht)]
      exact .member hk hs (Nat.le_trans hp ih.power) ht hts ih.formed
    · rw [replace_word hf hts (Spells.isMark_of_name ht)]
      exact Bool.and_false _
  | @scope l op t hk hs hp ht hts hl ih =>
    refine .getD hf (.scope hk hs hp ht hts hl) ⟨?_, Nat.le_refl _, Nat.le_refl _, fun _ => ?_⟩
    · rw [replace_word hf hts (Spells.isMark_of_name (.inl ht))]
      exact .scope hk hs (Nat.le_trans hp ih.power) ht hts ih.formed
    · rw [replace_word hf hts (Spells.isMark_of_name (.inl ht))]
      exact Bool.and_false _
  | dynamic hk hs hl hr hfl hfr ihl ihr =>
    refine .getD hf (.dynamic hk hs hl hr hfl hfr) ⟨?_, Nat.le_refl _, Nat.le_refl _, fun h => ?_⟩
    · exact .dynamic hk hs (Nat.le_trans hl ihl.power) (Nat.le_trans hr ihr.power) ihl.formed
        ihr.formed
    · rw [endsBare, Bool.and_eq_false_iff] at h ⊢
      exact h.imp id ihr.endsBare
  | index hp ha hi iha ihi =>
    refine .getD hf (.index hp ha hi) ⟨?_, Nat.le_refl _, Nat.le_refl _, id⟩
    exact .index (Nat.le_trans hp iha.power) iha.formed ihi.formed
  | array hes ih =>
    refine .getD hf (.array hes) ⟨?_, Nat.le_refl _, Nat.le_refl _, id⟩
    rw [replaceAll_eq]
    refine .array fun x hx => ?_
    obtain ⟨e, he, rfl⟩ := List.mem_map.mp hx
    exact (ih e he).formed
  | call hp hb hlen ht hes iht ih =>
    refine .getD hf (.call hp hb hlen ht hes) ⟨?_, Nat.le_refl _, Nat.le_refl _, id⟩
    rw [replaceAll_eq]
    refine .call (Nat.le_trans hp iht.power) (iht.endsBare hb) (by simpa using hlen) iht.formed ?_
    intro x hx
    obtain ⟨e, he, rfl⟩ := List.mem_map.mp hx
    exact (ih e he).formed
  | new hk hs => exact .getD hf (.new hk hs) ⟨.new hk hs, Nat.le_refl _, Nat.le_refl _, id⟩
  | construct hk hs hlen hes ih =>
    refine .getD hf (.construct hk hs hlen hes) ⟨?_, Nat.le_refl _, Nat.le_refl _, id⟩
    rw [replaceAll_eq]
    refine .construct hk hs (by simpa using hlen) fun x hx => ?_
    obtain ⟨e, he, rfl⟩ := List.mem_map.mp hx
    exact (ih e he).formed

end Expr

namespace Stmt

theorem replaceAll_eq (f : Expr → Option Expr) (acc ss : List Stmt) :
    replaceAll f acc ss = acc.reverse ++ ss.map (replace f) := by
  induction ss generalizing acc with
  | nil => simp [replaceAll]
  | cons s ss ih => simp [replaceAll, ih]

variable {N N' : String → Prop} {A : Prop} {f : Expr → Option Expr} {s : Stmt}

theorem Formed.replace (hf : Puts f N N' A) (h : s.Formed N A False) :
    (s.replace f).Formed N' A False ∧ (s.replace f).dangles = s.dangles := by
  have hvalue {value : Option Expr} (h : ∀ e ∈ value, e.Formed N A False) :
      ∀ e ∈ value.map (·.replace f), e.Formed N' A False := by
    intro e' he'
    obtain ⟨e, he, rfl⟩ := Option.map_eq_some_iff.mp he'
    exact ((h e he).replace hf).formed
  induction h with
  | block _ ih =>
    refine ⟨?_, rfl⟩
    rw [Stmt.replace, replaceAll_eq]
    refine .block fun x hx => ?_
    obtain ⟨s, hs, rfl⟩ := List.mem_map.mp hx
    exact (ih s hs).1
  | expr he => exact ⟨.expr (he.replace hf).formed, rfl⟩
  | return_ hv => exact ⟨.return_ (hvalue hv), rfl⟩
  | if_ hc _ ih => exact ⟨.if_ (hc.replace hf).formed ih.1, rfl⟩
  | ifElse hc _ hd _ ihb iha =>
    exact ⟨.ifElse (hc.replace hf).formed ihb.1 (ihb.2.trans hd) iha.1, iha.2⟩
  | while_ hc _ ih => exact ⟨.while_ (hc.replace hf).formed ih.1, ih.2⟩
  | doWhile _ hc ih => exact ⟨.doWhile ih.1 (hc.replace hf).formed, rfl⟩
  | foreach hk hx hc _ ih => exact ⟨.foreach hk hx (hc.replace hf).formed ih.1, ih.2⟩
  | assign ht hv => exact ⟨.assign (ht.replace hf).formed (hv.replace hf).formed, rfl⟩
  | var hk hn hi => exact ⟨.var hk hn (hvalue hi), rfl⟩

end Stmt

/-! Folds over all expressions of a tree. -/

section

variable {β : Type} {f : β → Expr → β} {P : β → Prop}

mutual

/-- What each step keeps, a fold keeps. -/
theorem Expr.fold_keeps (hf : ∀ b e, P b → P (f b e)) : (e : Expr) → {b : β} → P b → P (e.fold f b)
  | .grouping e, b, h => fold_keeps hf e (hf b _ h)
  | .unary _ e _, b, h => fold_keeps hf e (hf b _ h)
  | .binary l _ r, b, h => fold_keeps hf r (fold_keeps hf l (hf b _ h))
  | .index a i _, b, h => fold_keeps hf i (fold_keeps hf a (hf b _ h))
  | .array es _, b, h => foldAll_keeps hf es (hf b _ h)
  | .call t es _, b, h => foldAll_keeps hf es (fold_keeps hf t (hf b _ h))
  | .construct _ (some es) _, b, h => foldAll_keeps hf es (hf b _ h)
  | .construct _ none _, b, h => hf b _ h
  | .literal _, b, h => hf b _ h
  | .variable _, b, h => hf b _ h
  | .pending _, b, h => hf b _ h

theorem Expr.foldAll_keeps (hf : ∀ b e, P b → P (f b e)) :
    (es : List Expr) → {b : β} → P b → P (Expr.foldAll f b es)
  | [], _, h => h
  | e :: es, _, h => foldAll_keeps hf es (fold_keeps hf e h)

end

mutual

theorem Stmt.fold_keeps (hf : ∀ b e, P b → P (f b e)) : (s : Stmt) → {b : β} → P b → P (s.fold f b)
  | .block ⟨body, _⟩, _, h => foldAll_keeps hf body h
  | .expr e, _, h => e.fold_keeps hf h
  | .return_ (some e) _, _, h => e.fold_keeps hf h
  | .return_ none _, _, h => h
  | .if_ (some c) body (some arm) _, _, h =>
    fold_keeps hf arm (fold_keeps hf body (c.fold_keeps hf h))
  | .if_ (some c) body none _, _, h => fold_keeps hf body (c.fold_keeps hf h)
  | .if_ none body (some arm) _, _, h => fold_keeps hf arm (fold_keeps hf body h)
  | .if_ none body none _, _, h => fold_keeps hf body h
  | .while_ c body, _, h => fold_keeps hf body (c.fold_keeps hf h)
  | .doWhile body c, _, h => c.fold_keeps hf (fold_keeps hf body h)
  | .foreach _ c body, _, h => fold_keeps hf body (c.fold_keeps hf h)
  | .assign t v, _, h => v.fold_keeps hf (t.fold_keeps hf h)
  | .var _ (some e), _, h => e.fold_keeps hf h
  | .var _ none, _, h => h
  | .classDecl _, _, h => h
  | .property _, _, h => h
  | .subroutine _, _, h => h
  | .global _, _, h => h

theorem Stmt.foldAll_keeps (hf : ∀ b e, P b → P (f b e)) :
    (ss : List Stmt) → {b : β} → P b → P (Stmt.foldAll f b ss)
  | [], _, h => h
  | s :: ss, _, h => foldAll_keeps hf ss (fold_keeps hf s h)

end

end

end Lss
