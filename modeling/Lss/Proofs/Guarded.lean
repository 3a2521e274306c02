import Lss.Proofs.Straight
import Lss.Proofs.Stripped

/-!
# Locals that only elements are read with

The counter of a loop over a collection is read for nothing but the elements of the collection, and
its bound for nothing at all. What reads them so goes where the elements are replaced by a name.
-/
namespace Lss

/-- A loop over a collection that is under way: its two locals, and the collection as it stands in
front of the index of an element. -/
structure Loop where
  index : String
  last : String
  items : Expr

def Loop.read (l : Loop) (span : Span) : Expr := .index l.items (.name l.index) span

def Loop.replace (f : Expr → Option Expr) (l : Loop) : Loop := { l with items := l.items.replace f }

namespace Expr

inductive Guarded (hidden : String → Prop) (loops : List Loop) : Expr → Prop
  | literal {t} : Guarded hidden loops (.literal t)
  | name {t} : (∀ x, (Expr.variable t).placeholder? = some x → ¬ hidden x) →
      Guarded hidden loops (.variable t)
  | grouping {e} : Guarded hidden loops e → Guarded hidden loops (.grouping e)
  | unary {op e leads} : Guarded hidden loops e → Guarded hidden loops (.unary op e leads)
  | binary {l op r} : Guarded hidden loops l → Guarded hidden loops r →
      Guarded hidden loops (.binary l op r)
  | index {a i span} : Guarded hidden loops a → Guarded hidden loops i →
      Guarded hidden loops (.index a i span)
  | array {es span} : (∀ e ∈ es, Guarded hidden loops e) → Guarded hidden loops (.array es span)
  | call {t es span} : Guarded hidden loops t → (∀ e ∈ es, Guarded hidden loops e) →
      Guarded hidden loops (.call t es span)
  | new {t span} : Guarded hidden loops (.construct t none span)
  | construct {t es span} : (∀ e ∈ es, Guarded hidden loops e) →
      Guarded hidden loops (.construct t (some es) span)
  | pending {t} : Guarded hidden loops (.pending t)
  | read {l span} : l ∈ loops → Guarded hidden loops l.items → Guarded hidden loops (l.read span)

variable {hidden : String → Prop} {loops loops' : List Loop} {e : Expr} {x : String}

theorem Guarded.word {t : Token} (h : (Expr.variable t).placeholder? = none) :
    Guarded hidden loops (.variable t) :=
  .name fun x hx => by rw [h] at hx; cases hx

theorem Guarded.groupedIf (h : Guarded hidden loops e) (c : Bool) :
    Guarded hidden loops (e.groupedIf c) := by
  unfold Expr.groupedIf
  split
  · exact .grouping h
  · exact h

theorem Guarded.operation {l r : Expr} (hl : Guarded hidden loops l) (hr : Guarded hidden loops r)
    (op : TokenKind) : Guarded hidden loops (Expr.operation l op r) :=
  .binary hl hr

theorem head_name (op : ArrayOp) : op.name.toList.head? ≠ some '$' := by
  cases op <;> decide

/-- Reading back a container whose names are not hidden ones brings in no hidden local. -/
theorem Guarded.hereditary {c : Container}
    (hc : ∀ text, c.Knows text → text.toList.head? ≠ some '$') :
    Hereditary c (Guarded hidden loops) where
  literal _ := .literal
  this := .word (placeholder?_of_kind nofun)
  name h := .word (placeholder?_of_text (hc _ h))
  property _ := .word (placeholder?_of_kind nofun)
  arrayOp op := .word (placeholder?_of_text (head_name op))
  binary op hl hr := by
    unfold Expr.ofBinary
    split
    · exact hl.operation hr _
    · exact (hl.groupedIf _).operation (hr.groupedIf _) _
  unary _ he := .unary (he.groupedIf _)
  access op hl hr := by
    unfold Expr.ofAccess
    refine (hl.groupedIf _).operation ?_ _
    split
    · exact hr.groupedIf _
    · exact hr.groupedIf _
    · exact hr
  index ha hi := .index (ha.groupedIf _) hi
  call ht hes := .call ht hes
  array hes := .array hes
  pending _ := .pending
  new _ := .new
  construct _ hes := .construct hes

theorem Guarded.ungrouped (h : Guarded hidden loops e) : Guarded hidden loops e.ungrouped := by
  induction h with
  | grouping _ ih => exact ih
  | literal => exact .literal
  | name h => exact .name h
  | unary h _ => exact .unary h
  | binary hl hr _ _ => exact .binary hl hr
  | index ha hi _ _ => exact .index ha hi
  | array h _ => exact .array h
  | call ht h _ _ => exact .call ht h
  | new => exact .new
  | construct h _ => exact .construct h
  | pending => exact .pending
  | read hl h _ => exact .read hl h

theorem placeholder?_eq_some (h : e.placeholder? = some x) :
    ∃ t, e.ungrouped = .variable t ∧ (Expr.variable t).placeholder? = some x := by
  unfold placeholder? at h
  split at h
  · next t ht => exact ⟨t, ht, h⟩
  · cases h

/-- A hidden local is not guarded when it stands alone. -/
theorem Guarded.not_hidden (h : Guarded hidden loops e) (hx : e.placeholder? = some x) :
    ¬ hidden x := by
  obtain ⟨t, ht, hx⟩ := placeholder?_eq_some hx
  have := h.ungrouped
  rw [ht] at this
  cases this with
  | name hv => exact hv x hx

theorem isPlaceholder_iff : e.isPlaceholder x ↔ e.placeholder? = some x := by
  rw [isPlaceholder, beq_iff_eq]

theorem tally_name (text : String) :
    (Expr.name text).tally x = ((Expr.name text).isPlaceholder x).toNat :=
  tally_variable _

theorem eq_of_placeholder?_variable {t : Token} (h : (Expr.variable t).placeholder? = some x) :
    t.text = x := by
  unfold placeholder? at h
  simp only [Expr.ungrouped] at h
  split at h
  · exact Option.some.inj h
  · cases h

/-- A hidden local that no loop counts with is not mentioned. -/
theorem Guarded.tally_eq_zero (h : Guarded hidden loops e) (hx : hidden x)
    (hloops : ∀ l ∈ loops, l.index ≠ x) : e.tally x = 0 := by
  have hself {e : Expr} (he : Guarded hidden loops e) : e.isPlaceholder x = false :=
    Bool.eq_false_iff.mpr fun hp => he.not_hidden (isPlaceholder_iff.mp hp) hx
  have hall {es : List Expr} (ih : ∀ e ∈ es, e.tally x = 0) : (es.map (·.tally x)).sum = 0 := by
    rw [List.sum_eq_zero_iff_forall_eq_nat]
    simpa using ih
  induction h with
  | literal | new | pending => rfl
  | name h =>
    rw [tally_variable, hself (.name h)]
    rfl
  | grouping h ih => rw [tally_grouping, hself (.grouping h), ih]; rfl
  | unary _ ih => rw [tally_unary, ih]
  | binary _ _ ihl ihr => rw [tally_binary, ihl, ihr]
  | index _ _ iha ihi => rw [tally_index, iha, ihi]
  | array _ ih => rw [tally_array, hall ih]
  | call _ _ iht ih => rw [tally_call, iht, hall ih]
  | construct _ ih => rw [tally_construct, hall ih]
  | @read l span hl _ ih =>
    have hname : (Expr.name l.index).tally x = 0 := by
      rw [tally_name, Bool.toNat_eq_zero]
      refine Bool.eq_false_iff.mpr fun hp => hloops l hl ?_
      exact eq_of_placeholder?_variable (isPlaceholder_iff.mp hp)
    rw [Loop.read, tally_index, ih, hname]

/-! Names for elements. -/

def NamesElements (f : Expr → Option Expr) : Prop :=
  ∀ e e', f e = some e' → (∃ a i span, e.ungrouped = .index a i span) ∧
    ∃ t, e' = .variable t ∧ (Expr.variable t).placeholder? = none

variable {f : Expr → Option Expr}

theorem NamesElements.eq_none (hf : NamesElements f)
    (h : ∀ a i span, e.ungrouped ≠ .index a i span) : f e = none := by
  cases hfe : f e with
  | none => rfl
  | some e' =>
    obtain ⟨a, i, span, heq⟩ := (hf e e' hfe).1
    exact absurd heq (h a i span)

theorem NamesElements.replace_variable (hf : NamesElements f) (t : Token) :
    (Expr.variable t).replace f = .variable t := by
  rw [replace, hf.eq_none (by simp [Expr.ungrouped]), Option.getD_none]

theorem NamesElements.replace_literal (hf : NamesElements f) (t : Token) :
    (Expr.literal t).replace f = .literal t := by
  rw [replace, hf.eq_none (by simp [Expr.ungrouped]), Option.getD_none]

theorem NamesElements.replace_operation (hf : NamesElements f) (l r : Expr) (op : TokenKind) :
    (Expr.operation l op r).replace f = Expr.operation (l.replace f) op (r.replace f) := by
  rw [operation, replace, hf.eq_none (by simp [Expr.ungrouped]), Option.getD_none]
  rfl

theorem NamesElements.guarded_getD (hf : NamesElements f) (h : Guarded hidden loops e) (e' : Expr) :
    Guarded hidden loops ((f e').getD e) := by
  cases hfe : f e' with
  | none => exact h
  | some v =>
    obtain ⟨t, rfl, ht⟩ := (hf e' v hfe).2
    exact .word ht

/-- Where every loop either has its elements named or is still under way afterwards, hidden locals
stay guarded. -/
theorem Guarded.replace (h : Guarded hidden loops e) (hf : NamesElements f)
    (hread : ∀ l ∈ loops, (∀ span, (f (l.read span)).isSome) ∨ l.replace f ∈ loops') :
    Guarded hidden loops' (e.replace f) := by
  induction h with
  | literal => exact hf.guarded_getD .literal _
  | name h => exact hf.guarded_getD (.name h) _
  | grouping _ ih => exact hf.guarded_getD (.grouping ih) _
  | unary _ ih => exact hf.guarded_getD (.unary ih) _
  | binary _ _ ihl ihr => exact hf.guarded_getD (.binary ihl ihr) _
  | index _ _ iha ihi => exact hf.guarded_getD (.index iha ihi) _
  | array _ ih =>
    rw [Expr.replace, replaceAll_eq]
    exact hf.guarded_getD (.array (by simpa using ih)) _
  | call _ _ iht ih =>
    rw [Expr.replace, replaceAll_eq]
    exact hf.guarded_getD (.call iht (by simpa using ih)) _
  | new => exact hf.guarded_getD .new _
  | construct _ ih =>
    rw [Expr.replace, replaceAll_eq]
    exact hf.guarded_getD (.construct (by simpa using ih)) _
  | pending => exact hf.guarded_getD .pending _
  | @read l span hl _ ih =>
    have hname : (Expr.name l.index).replace f = .name l.index := hf.replace_variable _
    rw [Loop.read, Expr.replace, hname]
    rcases hread l hl with hsome | hmem
    · obtain ⟨v, hv⟩ := Option.isSome_iff_exists.mp (hsome span)
      have hv : f (.index l.items (.name l.index) span) = some v := hv
      obtain ⟨t, rfl, ht⟩ := (hf _ v hv).2
      rw [hv]
      exact .word ht
    · exact hf.guarded_getD (Guarded.read (l := l.replace f) hmem ih) _

/-- What is an element afterwards was one, and its index was rewritten. -/
theorem NamesElements.ungrouped_replace (hf : NamesElements f) {a i : Expr} {span : Span} :
    (e : Expr) → (e.replace f).ungrouped = .index a i span →
      ∃ a' i', e.ungrouped = .index a' i' span ∧ i = i'.replace f
  | .index a' i' span', h => by
    rw [replace] at h
    cases hfe : f (.index a' i' span') with
    | none =>
      rw [hfe] at h
      cases h
      exact ⟨a', i', rfl, rfl⟩
    | some v =>
      obtain ⟨t, rfl, -⟩ := (hf _ v hfe).2
      rw [hfe] at h
      cases h
  | .grouping e, h => by
    rw [replace] at h
    cases hfe : f (.grouping e) with
    | none =>
      rw [hfe] at h
      exact hf.ungrouped_replace e h
    | some v =>
      obtain ⟨t, rfl, -⟩ := (hf _ v hfe).2
      rw [hfe] at h
      cases h
  | .literal _, h | .variable _, h | .unary _ _ _, h | .binary _ _ _, h | .array _ _, h
  | .call _ _ _, h | .construct _ none _, h | .construct _ (some _) _, h | .pending _, h => by
    rw [replace, hf.eq_none (by simp [Expr.ungrouped]), Option.getD_none] at h
    cases h

end Expr

end Lss
