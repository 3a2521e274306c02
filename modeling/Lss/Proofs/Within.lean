import Lss.Proofs.Introduced
import Lss.Proofs.Mentions

/-!
# Variables of a tree

Which names the variables of a tree have. A name is a variable where it stands for a value: the name
of a member, of a space or of a function that is called is none. All variables that reading back
gives are `this`, parameters, globals and placeholders.
-/
namespace Lss

def Retains (n : String → Nat) (V W : String → Prop) : Prop :=
  ∀ x, V x → (x.toList.head? = some '$' → 0 < n x) → W x

namespace Retains

variable {n m : String → Nat} {V W : String → Prop}

theorem left (h : Retains (fun x => n x + m x) V W) : Retains n V W :=
  fun x hx hp => h x hx fun hhead => Nat.add_pos_left (hp hhead) _

theorem right (h : Retains (fun x => n x + m x) V W) : Retains m V W :=
  fun x hx hp => h x hx fun hhead => Nat.add_pos_right _ (hp hhead)

theorem of_mem {α : Type} {as : List α} {f : String → α → Nat} {a : α}
    (h : Retains (fun x => (as.map (f x)).sum) V W) (ha : a ∈ as) : Retains (f · a) V W :=
  fun x hx hp => h x hx fun hhead =>
    List.sum_pos_iff_exists_pos_nat.mpr ⟨_, List.mem_map_of_mem ha, hp hhead⟩

end Retains

namespace Expr

inductive Within (V : String → Prop) : Expr → Prop
  | literal {t : Token} : Within V (.literal t)
  | name {t : Token} : t.kind = .identifier → V t.text → Within V (.variable t)
  | this : Within V .this
  | grouping {e : Expr} : Within V e → Within V (.grouping e)
  | unary {op : Token} {e : Expr} {leads : Bool} : Within V e → Within V (.unary op e leads)
  | binary {l r : Expr} {op : Token} {o : BinaryOp} : op.kind = .binary o → Within V l →
      Within V r → Within V (.binary l op r)
  | member {l : Expr} {op t : Token} : op.kind = .access .member → Within V l →
      Within V (.binary l op (.variable t))
  | dynamicMember {l r : Expr} {op : Token} : op.kind = .access .dynamicMember → Within V l →
      Within V r → Within V (.binary l op r)
  | scope {op s t : Token} : op.kind = .access .scope →
      Within V (.binary (.variable s) op (.variable t))
  | dynamicScope {r : Expr} {op s : Token} : op.kind = .access .dynamicScope → Within V r →
      Within V (.binary (.variable s) op r)
  | index {a i : Expr} {span : Span} : Within V a → Within V i → Within V (.index a i span)
  | array {es : List Expr} {span : Span} : (∀ e ∈ es, Within V e) → Within V (.array es span)
  | call {f : Token} {es : List Expr} {span : Span} : (∀ e ∈ es, Within V e) →
      Within V (.call (.variable f) es span)
  | invoke {l r : Expr} {op : Token} {es : List Expr} {span : Span} : Within V (.binary l op r) →
      (∀ e ∈ es, Within V e) → Within V (.call (.binary l op r) es span)
  | new {t : Token} {span : Span} : Within V (.construct t none span)
  | construct {t : Token} {es : List Expr} {span : Span} : (∀ e ∈ es, Within V e) →
      Within V (.construct t (some es) span)

variable {V V' : String → Prop} {e l r : Expr}

theorem Within.groupedIf (h : e.Within V) (c : Bool) : (e.groupedIf c).Within V := by
  unfold Expr.groupedIf
  split
  · exact .grouping h
  · exact h

theorem Within.ungrouped (h : e.Within V) : e.ungrouped.Within V := by
  fun_induction Expr.ungrouped e with
  | case1 e ih =>
    cases h with
    | grouping he => exact ih he
  | case2 => exact h

/-- Only names that are mentioned count. -/
theorem Within.restrict (h : e.Within V) (hV : Retains (e.tally ·) V V') : e.Within V' := by
  induction h with
  | literal => exact .literal
  | @name t hk hn =>
    refine .name hk (hV _ hn fun hhead => ?_)
    have hp : (Expr.variable t).placeholder? = some t.text := by
      simp [Expr.placeholder?, Expr.ungrouped, hk, hhead]
    show 0 < (Expr.variable t).tally t.text
    rw [tally_variable, isPlaceholder, hp, beq_self_eq_true]
    exact Nat.one_pos
  | this => exact .this
  | grouping _ ih =>
    simp only [tally_grouping] at hV
    exact .grouping (ih hV.right)
  | unary _ ih =>
    simp only [tally_unary] at hV
    exact .unary (ih hV)
  | binary hop _ _ ihl ihr =>
    simp only [tally_binary] at hV
    exact .binary hop (ihl hV.left)
      (ihr hV.right)
  | member hop _ ih =>
    simp only [tally_binary] at hV
    exact .member hop (ih hV.left)
  | dynamicMember hop _ _ ihl ihr =>
    simp only [tally_binary] at hV
    exact .dynamicMember hop (ihl hV.left)
      (ihr hV.right)
  | scope hop => exact .scope hop
  | dynamicScope hop _ ih =>
    simp only [tally_binary] at hV
    exact .dynamicScope hop (ih hV.right)
  | index _ _ iha ihi =>
    simp only [tally_index] at hV
    exact .index (iha hV.left)
      (ihi hV.right)
  | array _ ih =>
    simp only [tally_array] at hV
    exact .array fun e he => ih e he (hV.of_mem he)
  | call _ ih =>
    simp only [tally_call] at hV
    exact .call fun e he => ih e he (hV.right.of_mem he)
  | invoke _ _ ihf ih =>
    simp only [tally_call] at hV
    exact .invoke (ihf hV.left)
      fun e he => ih e he (hV.right.of_mem he)
  | new => exact .new
  | construct _ ih =>
    simp only [tally_construct] at hV
    exact .construct fun e he => ih e he (hV.of_mem he)

theorem Within.mono (h : e.Within V) (hV : ∀ x, V x → V' x) : e.Within V' :=
  h.restrict fun x hx _ => hV x hx

/-- Puts variables that `V'` allows in the place of some expressions, and leaves other variables
only where `V'` allows them. Operations stay, and what stands for a variable is one. -/
structure Swaps (V V' : String → Prop) (f : Expr → Option Expr) : Prop where
  results : ∀ e e', e.Within V → f e = some e' → ∃ t, e' = .variable t ∧ e'.Within V'
  others : ∀ t, t.kind = .identifier → V t.text → f (.variable t) = none → V' t.text
  this : f .this = none
  labels : ∀ t, ∃ t', (Expr.variable t).replace f = .variable t'
  operations : ∀ l op r, f (.binary l op r) = none

theorem Swaps.within_getD {f : Expr → Option Expr} (hf : Swaps V V' f) (h : e.Within V) {e' : Expr}
    (h' : e'.Within V') : ((f e).getD e').Within V' := by
  cases hfe : f e with
  | none => exact h'
  | some v =>
    obtain ⟨t, -, hv⟩ := hf.results e v h hfe
    exact hv

theorem Within.replace {f : Expr → Option Expr} (hf : Swaps V V' f) (h : e.Within V) :
    (e.replace f).Within V' := by
  induction h with
  | literal => exact hf.within_getD .literal .literal
  | @name t hk hn =>
    rw [Expr.replace]
    cases hft : f (.variable t) with
    | none => exact .name hk (hf.others t hk hn hft)
    | some v =>
      obtain ⟨t', -, hv⟩ := hf.results _ v (.name hk hn) hft
      exact hv
  | this =>
    have hthis : Expr.this.replace f = .this := by
      rw [Expr.this, Expr.replace, ← Expr.this, hf.this, Option.getD_none]
    rw [hthis]
    exact .this
  | grouping he ih => exact hf.within_getD (.grouping he) (.grouping ih)
  | unary he ih => exact hf.within_getD (.unary he) (.unary ih)
  | binary hop hl hr ihl ihr => exact hf.within_getD (.binary hop hl hr) (.binary hop ihl ihr)
  | @member l op t hop hl ih =>
    obtain ⟨t', ht'⟩ := hf.labels t
    refine hf.within_getD (.member hop hl) ?_
    rw [ht']
    exact .member hop ih
  | dynamicMember hop hl hr ihl ihr =>
    exact hf.within_getD (.dynamicMember hop hl hr) (.dynamicMember hop ihl ihr)
  | @scope op s t hop =>
    obtain ⟨s', hs'⟩ := hf.labels s
    obtain ⟨t', ht'⟩ := hf.labels t
    refine hf.within_getD (.scope hop) ?_
    rw [hs', ht']
    exact .scope hop
  | @dynamicScope r op s hop hr ih =>
    obtain ⟨s', hs'⟩ := hf.labels s
    refine hf.within_getD (.dynamicScope hop hr) ?_
    rw [hs']
    exact .dynamicScope hop ih
  | index ha hi iha ihi => exact hf.within_getD (.index ha hi) (.index iha ihi)
  | array hes ih =>
    rw [Expr.replace, replaceAll_eq]
    exact hf.within_getD (.array hes) (.array (by simpa using ih))
  | @call g es span hes ih =>
    obtain ⟨g', hg'⟩ := hf.labels g
    rw [Expr.replace, replaceAll_eq, hg']
    exact hf.within_getD (.call hes) (.call (by simpa using ih))
  | @invoke l r op es span hg hes ihg ih =>
    rw [Expr.replace, hf.operations, Option.getD_none] at ihg
    rw [Expr.replace, Expr.replace, replaceAll_eq, hf.operations, Option.getD_none]
    exact hf.within_getD (.invoke hg hes) (.invoke ihg (by simpa using ih))
  | new => exact hf.within_getD .new .new
  | construct hes ih =>
    rw [Expr.replace, replaceAll_eq]
    exact hf.within_getD (.construct hes) (.construct (by simpa using ih))

end Expr

namespace Stmt

/-- All variables have names that `V` allows, or those of the elements of the loops around them. No
local is declared. -/
inductive Within : (String → Prop) → Stmt → Prop
  | block {V : String → Prop} {ss : List Stmt} {span : Span} : (∀ s ∈ ss, Within V s) →
      Within V (.block ⟨ss, span⟩)
  | expr {V : String → Prop} {e : Expr} : e.Within V → Within V (.expr e)
  | return_ {V : String → Prop} {value : Option Expr} {span : Span} : (∀ e ∈ value, e.Within V) →
      Within V (.return_ value span)
  | if_ {V : String → Prop} {c : Option Expr} {body : Stmt} {span : Span} :
      (∀ e ∈ c, e.Within V) → Within V body → Within V (.if_ c body none span)
  | ifElse {V : String → Prop} {c : Option Expr} {body arm : Stmt} {span : Span} :
      (∀ e ∈ c, e.Within V) → Within V body → Within V arm → Within V (.if_ c body (some arm) span)
  | while_ {V : String → Prop} {c : Expr} {body : Stmt} : c.Within V → Within V body →
      Within V (.while_ c body)
  | doWhile {V : String → Prop} {c : Expr} {body : Stmt} : Within V body → c.Within V →
      Within V (.doWhile body c)
  | foreach {V : String → Prop} {x : Token} {c : Expr} {body : Stmt} :
      x.text.toList.head? ≠ some '$' → c.Within V → Within (fun y => V y ∨ y = x.text) body →
      Within V (.foreach x c body)
  | assign {V : String → Prop} {t v : Expr} : t.Within V → v.Within V → Within V (.assign t v)

variable {V V' : String → Prop} {s : Stmt}

theorem Within.restrict (h : s.Within V) (hV : Retains (s.tally ·) V V') : s.Within V' := by
  induction h generalizing V' with
  | block _ ih =>
    simp only [tally_block, tallyAll_eq] at hV
    exact .block fun s hs => ih s hs (hV.of_mem hs)
  | expr he => exact .expr (he.restrict hV)
  | return_ hv =>
    refine .return_ fun e he => ?_
    cases he
    exact (hv e rfl).restrict hV
  | @if_ _ c body _ hc _ ih =>
    simp only [tally_if] at hV
    refine .if_ (fun e he => ?_) (ih hV.right)
    cases he
    exact (hc e rfl).restrict hV.left
  | @ifElse _ c body arm _ hc _ _ ihb iha =>
    simp only [tally_ifElse] at hV
    refine .ifElse (fun e he => ?_) (ihb hV.left.right) (iha hV.right)
    cases he
    exact (hc e rfl).restrict hV.left.left
  | while_ hc _ ih =>
    simp only [tally_while] at hV
    exact .while_ (hc.restrict hV.left)
      (ih hV.right)
  | doWhile _ hc ih =>
    simp only [tally_doWhile] at hV
    exact .doWhile (ih hV.left)
      (hc.restrict hV.right)
  | foreach hn hc _ ih =>
    simp only [tally_foreach] at hV
    refine .foreach hn
      (hc.restrict hV.left)
      (ih fun x hx hp => hx.imp_left fun hx => hV.right x hx hp)
  | assign ht hv =>
    simp only [tally_assign] at hV
    exact .assign (ht.restrict hV.left)
      (hv.restrict hV.right)

theorem Within.mono (h : s.Within V) (hV : ∀ x, V x → V' x) : s.Within V' :=
  h.restrict fun x hx _ => hV x hx

def Swaps (V V' : String → Prop) (f : Expr → Option Expr) : Prop :=
  ∀ X : String → Prop, (∀ x, X x → x.toList.head? ≠ some '$') →
    Expr.Swaps (fun x => V x ∨ X x) (fun x => V' x ∨ X x) f

theorem Swaps.expr {f : Expr → Option Expr} (hf : Swaps V V' f) : Expr.Swaps V V' f := by
  simpa using hf (fun _ => False) nofun

theorem Swaps.option {f : Expr → Option Expr} (hf : Swaps V V' f) {value : Option Expr}
    (h : ∀ e ∈ value, e.Within V) : ∀ e ∈ value.map (·.replace f), e.Within V' := by
  intro e he
  obtain ⟨e, hmem, rfl⟩ := Option.map_eq_some_iff.mp he
  exact (h e hmem).replace hf.expr

theorem Swaps.foreach {f : Expr → Option Expr} (hf : Swaps V V' f) {x : String}
    (hx : x.toList.head? ≠ some '$') : Swaps (fun y => V y ∨ y = x) (fun y => V' y ∨ y = x) f := by
  intro X hX
  have hboth : ∀ y, y = x ∨ X y → y.toList.head? ≠ some '$' := by
    rintro y (rfl | hy)
    · exact hx
    · exact hX y hy
  simpa only [or_assoc] using hf (fun y => y = x ∨ X y) hboth

theorem Within.replace {f : Expr → Option Expr} (h : s.Within V) (hf : Swaps V V' f) :
    (s.replace f).Within V' := by
  induction h generalizing V' with
  | block _ ih =>
    rw [Stmt.replace, Stmt.replaceAll_eq]
    refine .block (List.forall_mem_map.mpr fun s hs => ?_)
    exact ih s hs hf
  | expr he => exact .expr (he.replace hf.expr)
  | return_ hv => exact .return_ (hf.option hv)
  | if_ hc _ ih => exact .if_ (hf.option hc) (ih hf)
  | ifElse hc _ _ ihb iha =>
    exact .ifElse (hf.option hc) (ihb hf) (iha hf)
  | while_ hc _ ih => exact .while_ (hc.replace hf.expr) (ih hf)
  | doWhile _ hc ih => exact .doWhile (ih hf) (hc.replace hf.expr)
  | @foreach V x c body hn hc _ ih =>
    exact .foreach hn (hc.replace hf.expr) (ih (hf.foreach hn))
  | assign ht hv => exact .assign (ht.replace hf.expr) (hv.replace hf.expr)

end Stmt

/-! Code that is read back. -/

section

variable {V : String → Prop} {c : Container} {names : SlotNames}

def Kinds.within (V : String → Prop) : Kinds where
  float _ := True
  type _ := True
  expr := Expr.Within V
  callee f := (∃ t, f = .variable t) ∨ f.Within V ∧ ∃ l op r, f = .binary l op r
  stmt := Stmt.Within V

theorem elseArm_within {ss : List Stmt} (h : ∀ s ∈ ss, s.Within V) :
    (Body.elseArm ss).Within V := by
  unfold Body.elseArm
  split
  · exact h _ List.mem_cons_self
  · exact .block h

theorem ofReturn_within {e : Expr} (h : e.Within V) : (Stmt.ofReturn e).Within V := by
  unfold Stmt.ofReturn
  split
  · split
    · exact .return_ fun _ he => by cases he
    · exact .return_ fun _ he => by cases he; exact h
  · exact .return_ fun _ he => by cases he; exact h

theorem Kinds.within_closed (hglobals : ∀ x ∈ c.globals.toList, V x)
    (hslots : ∀ n, (Expr.variable (names.token n)).Within V) :
    (Kinds.within V).Closed c names where
  word _ := .literal
  integer _ := .literal
  float _ := .literal
  string _ := .literal
  this := .this
  global h := .name rfl (hglobals _ h)
  slot := hslots
  binary _ hl hr := by
    unfold Expr.ofBinary
    split
    · exact .binary rfl hl hr
    · exact .binary rfl (hl.groupedIf _) (hr.groupedIf _)
  unary _ he := .unary (he.groupedIf _)
  property _ he := .member rfl (he.groupedIf _)
  member he _ :=
    have h := .member rfl (he.groupedIf _)
    ⟨h, .inr ⟨h, _, _, _, rfl⟩⟩
  dynamicMember hl hr :=
    have h := .dynamicMember rfl (hl.groupedIf _) (hr.groupedIf _)
    ⟨h, .inr ⟨h, _, _, _, rfl⟩⟩
  scope _ _ := ⟨.scope rfl, .inr ⟨.scope rfl, _, _, _, rfl⟩⟩
  dynamicScope _ he :=
    have h := .dynamicScope rfl (he.groupedIf _)
    ⟨h, .inr ⟨h, _, _, _, rfl⟩⟩
  index ha hi := .index (ha.groupedIf _) hi
  arrayOp _ he := .inr ⟨.member rfl (he.groupedIf _), _, _, _, rfl⟩
  function _ := .inl ⟨_, rfl⟩
  call hf _ hes := by
    rcases hf with ⟨t, rfl⟩ | ⟨hf, l, op, r, rfl⟩
    · exact .call hes
    · exact .invoke hf hes
  array hes := .array hes
  type _ := trivial
  new _ := .new
  construct _ _ hes := .construct hes
  pending _ h := by cases h
  assign ht hv := .assign ht hv
  evaluate he := .expr he
  return_ he := ofReturn_within he
  if_ hc hss := .if_ (fun _ he => by cases he; exact hc) (.block hss)
  ifElse hc hss hts :=
    .ifElse (fun _ he => by cases he; exact hc) (.block hss)
      (.if_ (fun _ he => by cases he) (elseArm_within hts))
  while_ hc hss := .while_ hc (.block hss)
  doWhile hss hc := .doWhile (.block hss) hc

def SlotNames.Sees (names : SlotNames) (c : Container) (x : String) : Prop :=
  x ∈ names.parameters.map (·.text) ∨ x ∈ c.globals.toList

/-- A slot is `this`, a parameter or a placeholder. -/
theorem SlotNames.within_token (h : ∀ x, names.Sees c x ∨ x.toList.head? = some '$' → V x)
    (n : Nat) :
    (Expr.variable (names.token n)).Within V := by
  unfold SlotNames.token
  split
  · exact .this
  · next hthis =>
    split
    · next hn =>
      refine .name rfl (h _ (.inl (.inl (List.mem_map.mpr ⟨names.token n, ?_, ?_⟩))))
      · refine List.mem_map.mpr ⟨n - names.first, List.mem_range.mpr (by omega), ?_⟩
        rw [Nat.add_sub_cancel' hn.1]
      · rw [SlotNames.token, if_neg hthis, if_pos hn]
    · refine .name rfl (h _ (.inr ?_))
      simp [Token.identifier, Token.synthetic]

theorem Body.statements_within {b : Body} (hlib : b.library = .ofContainer c) {ss : List Stmt}
    (h : b.statements = .ok ss) :
    ∀ s ∈ ss, s.Within fun x => b.names.Sees c x ∨ x.toList.head? = some '$' := by
  have hclosed : (Kinds.within fun x => b.names.Sees c x ∨ x.toList.head? = some '$').Closed c
      b.names :=
    Kinds.within_closed (fun _ hx => .inl (.inr hx)) (SlotNames.within_token fun _ hx => hx)
  exact kind_of_statements hclosed hlib (fun _ _ => trivial) h

end

end Lss
