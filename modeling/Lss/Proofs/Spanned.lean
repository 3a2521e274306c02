import Lss.Proofs.ReadFrom
import Lss.Proofs.Tiling

/-!
# Spans of expressions

Tokens of a text stand in a row, each on the line that its span tells. So where an expression is
read from some of them, its span starts and stops among them, covers those of all its parts, and
tells the line that it starts on.
-/
namespace Lss

namespace Span

def Contains (a b : Span) : Prop := a.start ≤ b.start ∧ b.stop ≤ a.stop

def OnLine (source : String) (s : Span) : Prop :=
  ∃ before after : String, source = before ++ after ∧ s.start = before.utf8ByteSize ∧
    s.line = 1 + before.toList.count '\n'

/-- A span starts and stops among tokens of a text, and tells the line on which it starts. -/
structure Fits (source : String) (ts : List Token) (s : Span) : Prop where
  starts : ∃ t ∈ ts, t.span.start ≤ s.start
  stops : ∃ t ∈ ts, s.stop ≤ t.span.stop
  line : s.OnLine source

variable {source : String} {ts us xs ys zs : List Token} {a b c : Span}

theorem Contains.refl (a : Span) : a.Contains a := ⟨Nat.le_refl _, Nat.le_refl _⟩

theorem Contains.trans (h : a.Contains b) (k : b.Contains c) : a.Contains c :=
  ⟨Nat.le_trans h.1 k.1, Nat.le_trans k.2 h.2⟩

theorem OnLine.not_synthetic (h : a.OnLine source) : a.isSynthetic = false := by
  obtain ⟨before, after, -, -, hline⟩ := h
  simp [isSynthetic, hline]

/-- Of two spans one behind the other, the sum goes from the start of the first to the stop of the
second. -/
theorem add_spec (ha : a.isSynthetic = false) (hb : b.isSynthetic = false)
    (h : a.stop ≤ b.start) :
    (a + b).start = a.start ∧ (a + b).stop = b.stop ∧ (a + b).line = a.line := by
  have hle : a.start ≤ b.start := Nat.le_trans (Nat.le_add_right _ _) h
  have hsum : a + b = { a with length := max a.stop b.stop - a.start } := by
    change cover a b = _
    rw [cover, hb, ha]
    simp only [Bool.false_eq_true, if_false, if_pos hle]
  rw [hsum]
  refine ⟨rfl, ?_, rfl⟩
  unfold stop at *
  dsimp only
  omega

theorem Fits.mono (h : a.Fits source us) (hsub : ∀ t ∈ us, t ∈ ts) : a.Fits source ts := by
  obtain ⟨t, ht, hstart⟩ := h.starts
  obtain ⟨u, hu, hstop⟩ := h.stops
  exact ⟨⟨t, hsub t ht, hstart⟩, ⟨u, hsub u hu, hstop⟩, h.line⟩

end Span

structure Row (source : String) (ts : List Token) : Prop where
  apart : ts.Pairwise fun a b => a.span.stop ≤ b.span.start
  stands : ∀ t ∈ ts, t.StandsIn source

variable {source : String} {ts us xs ys zs : List Token} {a b c : Span} {t : Token}

theorem Row.part (h : Row source ts) (hsub : us <:+: ts) : Row source us :=
  ⟨h.apart.sublist hsub.sublist, fun t ht => h.stands t (hsub.subset ht)⟩

theorem Row.fits (h : Row source ts) (ht : t ∈ ts) : t.span.Fits source [t] := by
  obtain ⟨before, after, hsource, hstart, -, hline⟩ := h.stands t ht
  refine ⟨⟨t, List.mem_singleton_self t, Nat.le_refl _⟩,
    ⟨t, List.mem_singleton_self t, Nat.le_refl _⟩, before, t.text ++ after, ?_, hstart, hline⟩
  rw [hsource, String.append_assoc]

/-- What stands among earlier tokens stops before what stands among later ones. -/
theorem Row.before (h : Row source (xs ++ ys)) (ha : a.Fits source xs) (hb : b.Fits source ys) :
    a.stop ≤ b.start := by
  obtain ⟨t, ht, hstop⟩ := ha.stops
  obtain ⟨u, hu, hstart⟩ := hb.starts
  have := (List.pairwise_append.mp h.apart).2.2 t ht u hu
  omega

/-- A span from the first tokens of a row to the last ones contains those on the way. -/
theorem Row.covers (h : Row source (xs ++ ys ++ zs)) (ha : a.Fits source xs)
    (hb : b.Fits source zs) : (a + b).Fits source (xs ++ ys ++ zs) ∧ (a + b).Contains a ∧
      (a + b).Contains b ∧ ∀ c : Span, c.Fits source ys → (a + b).Contains c := by
  have hfirst : Row source (xs ++ ys) := h.part (List.prefix_append _ _).isInfix
  have hbefore : a.stop ≤ b.start :=
    h.before (ha.mono fun t ht => List.mem_append_left _ ht) hb
  obtain ⟨hstart, hstop, hline⟩ := Span.add_spec ha.line.not_synthetic hb.line.not_synthetic hbefore
  have hlea : a.start ≤ a.stop := Nat.le_add_right _ _
  have hleb : b.start ≤ b.stop := Nat.le_add_right _ _
  refine ⟨⟨?_, ?_, ?_⟩, ⟨by omega, by omega⟩, ⟨by omega, by omega⟩, fun c hc => ?_⟩
  · obtain ⟨t, ht, hle⟩ := ha.starts
    exact ⟨t, List.mem_append_left _ (List.mem_append_left _ ht), hstart ▸ hle⟩
  · obtain ⟨t, ht, hle⟩ := hb.stops
    exact ⟨t, List.mem_append_right _ ht, hstop ▸ hle⟩
  · obtain ⟨before, after, hsource, hoffset, hcount⟩ := ha.line
    exact ⟨before, after, hsource, hstart.trans hoffset, hline.trans hcount⟩
  · have hac := hfirst.before ha hc
    have hcb := h.before (hc.mono fun t ht => List.mem_append_right _ ht) hb
    have hlec : c.start ≤ c.stop := Nat.le_add_right _ _
    exact ⟨by omega, by omega⟩

/-! Expressions. -/

namespace Expr

def children : Expr → List Expr
  | .literal _ | .variable _ | .pending _ | .construct _ none _ => []
  | .grouping e | .unary _ e _ => [e]
  | .binary l _ r => [l, r]
  | .index a i _ => [a, i]
  | .array es _ | .construct _ (some es) _ => es
  | .call f es _ => f :: es

def held : Expr → List Token
  | .literal t | .variable t | .pending t | .unary t _ _ | .binary _ t _ | .construct t _ _ => [t]
  | .grouping _ | .index _ _ _ | .array _ _ | .call _ _ _ => []

inductive PartOf (x : Expr) : Expr → Prop
  | self : PartOf x x
  | inside {c e : Expr} : c ∈ e.children → PartOf x c → PartOf x e

structure Spans (source : String) (ts : List Token) (e : Expr) : Prop where
  fits : e.span.Fits source ts
  parts : ∀ x : Expr, x.PartOf e → e.span.Contains x.span
  tokens : ∀ x : Expr, x.PartOf e → ∀ t ∈ x.held, e.span.Contains t.span

structure Node (source : String) (ts : List Token) (e : Expr) : Prop where
  fits : e.span.Fits source ts
  children : ∀ c ∈ e.children, e.span.Contains c.span
  held : ∀ t ∈ e.held, e.span.Contains t.span

variable {e x : Expr} {es : List Expr}

/-- The tokens of a child stand together. -/
theorem AllReadFrom.mem : {ts : List Token} → {es : List Expr} → AllReadFrom ts es →
    ∀ e ∈ es, ∃ us, us <:+: ts ∧ ReadFrom us e
  | _, _, .nil, e, he => nomatch he
  | _, _, @Expr.AllReadFrom.one ts _ h, e, he => by
    rw [List.mem_singleton.mp he]
    exact ⟨ts, List.infix_refl ts, h⟩
  | _, _, @Expr.AllReadFrom.more ts us comma _ _ _ _ hes h, e, he => by
    rcases List.mem_append.mp he with he | he
    · obtain ⟨vs, hvs, hread⟩ := hes.mem e he
      exact ⟨vs, hvs.trans (List.prefix_append _ _).isInfix, hread⟩
    · rw [List.mem_singleton.mp he]
      exact ⟨us, ((List.suffix_cons comma us).trans (List.suffix_append ts _)).isInfix, h⟩

theorem mem_children_applyUnary {op : Token} (h : x ∈ (Parser.applyUnary op e).children) :
    x = e := by
  unfold Parser.applyUnary at h
  split at h
  · split at h
    · cases h
    · exact List.mem_singleton.mp h
  · exact List.mem_singleton.mp h

theorem ReadFrom.child (h : ReadFrom ts e) (hx : x ∈ e.children) :
    ∃ us, us <:+: ts ∧ ReadFrom us x := by
  cases h with
  | literal | «variable» | new => cases hx
  | @grouping ts left right e _ _ h =>
    rw [List.mem_singleton.mp hx]
    exact ⟨ts, ⟨[left], [right], rfl⟩, h⟩
  | @unary ts op e _ h =>
    rw [mem_children_applyUnary hx]
    exact ⟨ts, (List.suffix_cons op ts).isInfix, h⟩
  | @binary ts us op l r _ hl hr =>
    simp only [children, List.mem_cons, List.not_mem_nil, or_false] at hx
    rcases hx with rfl | rfl
    · exact ⟨ts, (List.prefix_append _ _).isInfix, hl⟩
    · exact ⟨us, ((List.suffix_cons op us).trans (List.suffix_append ts _)).isInfix, hr⟩
  | @index ts us left right a i _ _ ha hi =>
    simp only [children, List.mem_cons, List.not_mem_nil, or_false] at hx
    rcases hx with rfl | rfl
    · exact ⟨ts, ⟨[], left :: us ++ [right], by simp⟩, ha⟩
    · exact ⟨us, ⟨ts ++ [left], [right], by simp⟩, hi⟩
  | @array ts left right es _ _ h =>
    obtain ⟨us, hus, hread⟩ := h.mem x hx
    exact ⟨us, hus.trans ⟨[left], [right], rfl⟩, hread⟩
  | @call ts us left right f es _ _ hf h =>
    rcases List.mem_cons.mp hx with rfl | hx
    · exact ⟨ts, ⟨[], left :: us ++ [right], by simp⟩, hf⟩
    · obtain ⟨vs, hvs, hread⟩ := h.mem x hx
      exact ⟨vs, hvs.trans ⟨ts ++ [left], [right], by simp⟩, hread⟩
  | @construct ts word type left right es _ _ _ h =>
    obtain ⟨us, hus, hread⟩ := h.mem x hx
    exact ⟨us, hus.trans ⟨[word, type, left], [right], rfl⟩, hread⟩

/-- Each part of what is read is read from some of the tokens. -/
theorem ReadFrom.part (h : ReadFrom ts e) (hx : x.PartOf e) : ∃ us, us <:+: ts ∧ ReadFrom us x := by
  induction hx generalizing ts with
  | self => exact ⟨ts, List.infix_refl ts, h⟩
  | inside hc _ ih =>
    obtain ⟨us, hus, hread⟩ := h.child hc
    obtain ⟨vs, hvs, hx⟩ := ih hread
    exact ⟨vs, hvs.trans hus, hx⟩

theorem span_applyUnary (op : Token) (e : Expr) :
    (Parser.applyUnary op e).span = op.span + e.span := by
  unfold Parser.applyUnary
  split
  · split <;> rfl
  · rfl

theorem span_held_applyUnary {op : Token} (h : t ∈ (Parser.applyUnary op e).held) :
    t.span = op.span ∨ t.span = op.span + e.span := by
  unfold Parser.applyUnary at h
  split at h
  · split at h
    · rw [List.mem_singleton.mp h]
      exact Or.inr rfl
    · rw [List.mem_singleton.mp h]
      exact Or.inl rfl
  · rw [List.mem_singleton.mp h]
    exact Or.inl rfl

/-- An expression that is no more than a token. -/
theorem node_token (h : Row source [t]) (hspan : e.span = t.span) (hchildren : e.children = [])
    (hheld : e.held = [t]) : Node source [t] e := by
  refine ⟨hspan ▸ h.fits (List.mem_singleton_self t), ?_, ?_⟩
  · rw [hchildren]
    exact fun _ hc => nomatch hc
  · rw [hheld, hspan]
    intro u hu
    rw [List.mem_singleton.mp hu]
    exact .refl _

theorem node_unary {op : Token} (h : Row source (op :: ts)) (he : Node source ts e) :
    Node source (op :: ts) (Parser.applyUnary op e) := by
  have hop : op.span.Fits source [op] := h.fits List.mem_cons_self
  have hrow : Row source ([op] ++ [] ++ ts) := h
  obtain ⟨hfits, hcontains, hcontains', -⟩ := hrow.covers hop he.fits
  refine ⟨?_, fun c hc => ?_, fun u hu => ?_⟩
  · rw [span_applyUnary]
    exact hfits
  · rw [span_applyUnary, mem_children_applyUnary hc]
    exact hcontains'
  · rw [span_applyUnary]
    rcases span_held_applyUnary hu with hspan | hspan
    · rw [hspan]
      exact hcontains
    · rw [hspan]
      exact .refl _

theorem node_binary {op : Token} {l r : Expr} (h : Row source (ts ++ op :: us))
    (hl : Node source ts l) (hr : Node source us r) :
    Node source (ts ++ op :: us) (.binary l op r) := by
  have hop : op.span.Fits source [op] := h.fits (by simp)
  have hassoc : ts ++ op :: us = ts ++ [op] ++ [] ++ us := by simp
  rw [hassoc] at h ⊢
  have hfirst : Row source (ts ++ [] ++ [op]) := by
    refine h.part ⟨[], us, ?_⟩
    simp
  obtain ⟨hfits, hleft, hmiddle, -⟩ := hfirst.covers hl.fits hop
  rw [List.append_nil] at hfits
  obtain ⟨hall, hboth, hright, -⟩ := h.covers hfits hr.fits
  refine ⟨hall, fun c hc => ?_, fun t ht => ?_⟩
  · simp only [children, List.mem_cons, List.not_mem_nil, or_false] at hc
    rcases hc with rfl | rfl
    · exact hboth.trans hleft
    · exact hright
  · rw [List.mem_singleton.mp ht]
    exact hboth.trans hmiddle

/-- An expression that starts among `xs` and that a mark closes behind `ys`. -/
theorem node_closed {right : Token} (h : Row source (xs ++ ys ++ [right]))
    (ha : a.Fits source xs) (hspan : e.span = a + right.span)
    (hchildren : ∀ c ∈ e.children, c.span = a ∨ c.span.Fits source ys)
    (hheld : ∀ u ∈ e.held, a.Contains u.span) : Node source (xs ++ ys ++ [right]) e := by
  have hright : right.span.Fits source [right] := h.fits (by simp)
  obtain ⟨hfits, hfirst, -, hinside⟩ := h.covers ha hright
  rw [← hspan] at hfits hfirst hinside
  refine ⟨hfits, fun c hc => ?_, fun u hu => hfirst.trans (hheld u hu)⟩
  rcases hchildren c hc with hc | hc
  · rw [hc]
    exact hfirst
  · exact hinside _ hc

/-- The keyword and the type behind it. -/
theorem node_new {word type : Token} (h : Row source [word, type]) :
    (word.span + type.span).Fits source [word, type] ∧
      (word.span + type.span).Contains type.span := by
  have hword : word.span.Fits source [word] := h.fits List.mem_cons_self
  have htype : type.span.Fits source [type] := h.fits (by simp)
  have hrow : Row source ([word] ++ [] ++ [type]) := h
  obtain ⟨hfits, -, hcontains, -⟩ := hrow.covers hword htype
  exact ⟨hfits, hcontains⟩

mutual

theorem ReadFrom.node (source : String) : {ts : List Token} → {e : Expr} → ReadFrom ts e →
    Row source ts → Node source ts e
  | _, _, .literal _, h | _, _, .variable, h => node_token h rfl rfl rfl
  | _, _, @Expr.ReadFrom.grouping ts left right _ _ _ he, h => by
    have hsub : ts <:+: left :: ts ++ [right] := ⟨[left], [right], rfl⟩
    have hnode := he.node source (h.part hsub)
    refine ⟨hnode.fits.mono fun t ht => hsub.subset ht, fun c hc => ?_, fun _ hu => nomatch hu⟩
    rw [List.mem_singleton.mp hc]
    exact .refl _
  | _, _, @Expr.ReadFrom.unary ts op _ _ he, h =>
    node_unary h (he.node source (h.part (List.suffix_cons op ts).isInfix))
  | _, _, @Expr.ReadFrom.binary ts us op _ _ _ hl hr, h => by
    have hsuffix := (List.suffix_cons op us).trans (List.suffix_append ts _)
    exact node_binary h (hl.node source (h.part (List.prefix_append _ _).isInfix))
      (hr.node source (h.part hsuffix.isInfix))
  | _, _, @Expr.ReadFrom.index ts us left right _ _ _ _ ha hi, h => by
    have ha := ha.node source (h.part ⟨[], left :: us ++ [right], by simp⟩)
    have hi := hi.node source (h.part ⟨ts ++ [left], [right], by simp⟩)
    refine node_closed h ha.fits rfl (fun c hc => ?_) fun _ hu => nomatch hu
    simp only [children, List.mem_cons, List.not_mem_nil, or_false] at hc
    rcases hc with rfl | rfl
    · exact Or.inl rfl
    · exact Or.inr (hi.fits.mono fun t ht => List.mem_cons_of_mem left ht)
  | _, _, @Expr.ReadFrom.array ts left right _ _ _ hes, h => by
    have hleft : left.span.Fits source [left] := h.fits (by simp)
    have hes := hes.node source (h.part ⟨[left], [right], rfl⟩)
    have hrow : Row source ([left] ++ ts ++ [right]) := h
    exact node_closed hrow hleft rfl (fun c hc => Or.inr (hes c hc))
      fun _ hu => nomatch hu
  | _, _, @Expr.ReadFrom.call ts us left right _ _ _ _ hf hes, h => by
    have hf := hf.node source (h.part ⟨[], left :: us ++ [right], by simp⟩)
    have hes := hes.node source (h.part ⟨ts ++ [left], [right], by simp⟩)
    refine node_closed h hf.fits rfl (fun c hc => ?_) fun _ hu => nomatch hu
    rcases List.mem_cons.mp hc with rfl | hc
    · exact Or.inl rfl
    · exact Or.inr ((hes c hc).mono fun t ht => List.mem_cons_of_mem left ht)
  | _, _, @Expr.ReadFrom.new word type _, h => by
    obtain ⟨hfits, hcontains⟩ := node_new h
    refine ⟨hfits, nofun, fun u hu => ?_⟩
    rw [List.mem_singleton.mp hu]
    exact hcontains
  | _, _, @Expr.ReadFrom.construct ts word type left right _ _ _ _ hes, h => by
    obtain ⟨hfits, hcontains⟩ :=
      node_new (h.part ⟨[], left :: ts ++ [right], rfl⟩ : Row source [word, type])
    have hes := hes.node source (h.part ⟨[word, type, left], [right], rfl⟩)
    have hrow : Row source ([word, type] ++ (left :: ts) ++ [right]) := h
    refine node_closed hrow hfits rfl (fun c hc => ?_) fun u hu => ?_
    · exact Or.inr ((hes c hc).mono fun t ht => List.mem_cons_of_mem left ht)
    · rw [List.mem_singleton.mp hu]
      exact hcontains

theorem AllReadFrom.node (source : String) : {ts : List Token} → {es : List Expr} →
    AllReadFrom ts es → Row source ts → ∀ e ∈ es, e.span.Fits source ts
  | _, _, .nil, _, e, he => nomatch he
  | _, _, .one h, hrow, e, he => by
    rw [List.mem_singleton.mp he]
    exact (h.node source hrow).fits
  | _, _, @Expr.AllReadFrom.more ts us comma _ _ _ _ hes h, hrow, e, he => by
    rcases List.mem_append.mp he with he | he
    · have hfits := hes.node source (hrow.part (List.prefix_append _ _).isInfix) e he
      exact hfits.mono fun t ht => List.mem_append_left _ ht
    · rw [List.mem_singleton.mp he]
      have hsuffix := (List.suffix_cons comma us).trans (List.suffix_append ts _)
      exact ((h.node source (hrow.part hsuffix.isInfix)).fits).mono fun t ht => hsuffix.subset ht

end

/-- What covers everything right below it covers everything below it. -/
theorem ReadFrom.spans (h : ReadFrom ts e) (hrow : Row source ts) : Spans source ts e := by
  have hcontains : ∀ x : Expr, x.PartOf e → e.span.Contains x.span := by
    intro x hx
    induction hx generalizing ts with
    | self => exact .refl _
    | inside hc _ ih =>
      obtain ⟨us, hus, hread⟩ := h.child hc
      exact ((h.node source hrow).children _ hc).trans (ih hread (hrow.part hus))
  refine ⟨(h.node source hrow).fits, hcontains, fun x hx t ht => ?_⟩
  obtain ⟨us, hus, hread⟩ := h.part hx
  exact (hcontains x hx).trans ((hread.node source (hrow.part hus)).held t ht)

/-- An expression is read from tokens of a text with the right span, and so is each of its parts
from some of them. -/
structure Placed (source : String) (ts : List Token) (e : Expr) : Prop where
  reads : ReadFrom ts e
  spans : Spans source ts e
  parts : ∀ x : Expr, x.PartOf e → ∃ us, us <:+: ts ∧ ReadFrom us x ∧ Spans source us x

theorem ReadFrom.placed (h : ReadFrom ts e) (hrow : Row source ts) : Placed source ts e := by
  refine ⟨h, h.spans hrow, fun x hx => ?_⟩
  obtain ⟨us, hus, hread⟩ := h.part hx
  exact ⟨us, hus, hread, hread.spans (hrow.part hus)⟩

end Expr

/-! Tokens of a scan. -/

theorem Tiles.apart {start stop : Nat} (h : Tiles start ts stop) :
    (∀ t ∈ ts, start ≤ t.span.start) ∧
      ts.Pairwise fun a b => a.span.stop ≤ b.span.start := by
  induction ts generalizing start with
  | nil => exact ⟨nofun, .nil⟩
  | cons t ts ih =>
    obtain ⟨hbehind, hapart⟩ := ih h.2
    have hstart : start = t.span.start := h.1.symm
    refine ⟨fun u hu => ?_, List.pairwise_cons.mpr ⟨hbehind, hapart⟩⟩
    rcases List.mem_cons.mp hu with rfl | hu
    · omega
    · have hlater := hbehind u hu
      have hle : t.span.start ≤ t.span.stop := Nat.le_add_right _ _
      omega

theorem scan_row (source : String) (file : Option String) (keepTrivia : Bool) :
    Row source (scan source file keepTrivia).1 := by
  obtain ⟨hscan, hfilter⟩ := scan_tokenized source file
  have hrow : Row source (scan source file true).1 :=
    ⟨hscan.tiles.apart.2, fun t ht => (hscan.stands t ht).1⟩
  cases keepTrivia with
  | true => exact hrow
  | false =>
    rw [hfilter]
    exact ⟨hrow.apart.sublist List.filter_sublist,
      fun t ht => hrow.stands t ((List.mem_filter.mp ht).1)⟩

/-- So do the tokens that are parsed. -/
theorem TokenStream.row {tokens : List Token} (h : Row source tokens) :
    Row source (TokenStream.ofTokens tokens).rest := by
  have hsub : (TokenStream.ofTokens tokens).rest.Sublist tokens :=
    (List.takeWhile_sublist _).trans List.filter_sublist
  exact ⟨h.apart.sublist hsub, fun t ht => h.stands t (hsub.subset ht)⟩

namespace Parser

/-- An expression is placed where the parser has found it. -/
theorem expression_placed (h : Row source ts) (fin : Token) :
    (expression fin ts).Consumes ts (Expr.Placed source) := by
  have hreads := expression_consumes fin ts
  cases hreply : expression fin ts with
  | done e rest notes hs =>
    rw [hreply] at hreads
    obtain ⟨taken, htaken, he⟩ := hreads
    exact ⟨taken, htaken, he.placed (h.part (htaken ▸ (List.prefix_append _ _).isInfix))⟩
  | gaveUp moved rest notes hs => trivial

end Parser

end Lss
