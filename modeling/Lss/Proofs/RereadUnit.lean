import Lss.Proofs.RereadExpr

/-!
# Reading the tokens of a tree: statements, declarations, units

The tokens of a formed unit are read as that unit.
-/
namespace Lss

namespace Parser

attribute [local simp] Stmt.rebuild

variable {N : String → Prop} {A B : Prop} {fin : Token} {ts rest : List Token}

def NoElse (rest : List Token) : Prop := ∀ t ∈ rest.head?, t.kind ≠ .keyword .else_

structure AgainStmt (A : Prop) (s s' : Stmt) (notes : List Diagnostic) : Prop where
  bare : s'.bare = s.folded.bare
  quiet : A → notes = []

def RereadsStmt (A : Prop) (s : Stmt) : Prop :=
  ∀ fin ts rest, ts.map Token.bare = s.tokens → (s.dangles → NoElse rest) →
    ∃ s' notes, AgainStmt A s s' notes ∧ (statement fin (ts ++ rest)).Gives s' rest notes

theorem NoElse.of_kind {t : Token} {kind : TokenKind} (ht : t.kind = kind)
    (h : kind ≠ .keyword .else_) : NoElse (t :: rest) := by
  rintro _ ⟨⟩
  rwa [ht]

/-! Which token a statement starts with. -/

/-- A token that starts an expression starts no other statement, and closes nothing. -/
theorem statement_of_begins {t : Token} (h : t.kind.begins) :
    statement fin (t :: rest) = expressionStatement fin (t :: rest) := by
  rw [statement]
  split <;> first | rfl | (next hk => rw [hk] at h; cases h)

theorem ne_of_begins {k kind : TokenKind} (h : k.begins) (hk : kind.begins = false) : k ≠ kind := by
  rintro rfl
  rw [h] at hk
  cases hk

theorem leads_stmt {s : Stmt} (h : s.Formed N A B) : ∃ t ts, s.tokens = t :: ts ∧
    t.kind ≠ .keyword .else_ ∧ t.kind ≠ .rightBrace := by
  cases h with
  | expr he | assign he _ =>
    obtain ⟨t, ts, ht, hb, -⟩ := he.leads
    exact ⟨t, _, by rw [Stmt.tokens, ht]; rfl, ne_of_begins hb rfl, ne_of_begins hb rfl⟩
  | @return_ value s _ => cases value <;> exact ⟨_, _, rfl, by decide, by decide⟩
  | @var name init _ _ _ => cases init <;> exact ⟨_, _, rfl, by decide, by decide⟩
  | _ => exact ⟨_, _, rfl, by decide, by decide⟩

/-! Parts of statements. -/

theorem parenthesized_gives {e : Expr} (h : Rereads A e) (fin : Token) (opening closing : String)
    (rest : List Token)
    (hts : ts.map Token.bare = .of .leftParen :: (e.tokens ++ [Token.of .rightParen])) :
    ∃ e' notes, Again A e e' notes ∧
      (parenthesized opening closing fin (ts ++ rest)).Gives e' rest notes := by
  obtain ⟨p, ys, rfl, hp, hys⟩ := List.map_eq_cons_iff.mp hts
  obtain ⟨e', mark, notes, hagain, hc⟩ := h.closed (.inl rfl) fin closing rest hys
  refine ⟨e', [] ++ (notes ++ []), ⟨hagain.bare, by simpa using hagain.quiet⟩, ?_⟩
  change (parenthesized opening closing fin (p :: (ys ++ rest))).Gives _ _ _
  rw [parenthesized]
  exact (expect_gives (Token.kind_of_bare hp)).start fun _ => hc.next fun _ => .done

theorem begins_of_read {e : Expr} (he : e.Formed N A B) (hts : ts.map Token.bare = e.tokens) :
    ∃ t rest, ts = t :: rest ∧ t.kind.begins := by
  obtain ⟨b, bs, hbs, hbegins, -⟩ := he.leads
  rw [hbs] at hts
  obtain ⟨t, rest, rfl, rfl, -⟩ := List.map_eq_cons_iff.mp hts
  exact ⟨t, rest, rfl, hbegins⟩

/-- An expression and the semicolon that ends its statement. -/
theorem expression_semicolon {e : Expr} (he : e.Formed N A B) (fin : Token) (rest : List Token)
    (hts : ts.map Token.bare = e.tokens ++ [Token.of .semicolon]) :
    ∃ (t : Token) (xs : List Token) (m : Token), ts = t :: xs ++ [m] ∧ t.kind.begins ∧
      m.kind = .semicolon ∧ ∃ e' notes,
      Again A e e' notes ∧ (expression fin (t :: xs ++ m :: rest)).Gives e' (m :: rest) notes := by
  obtain ⟨xs, m, ys, rfl, hxs, hm, hys⟩ := split_tokens hts
  obtain rfl := List.map_eq_nil_iff.mp hys
  have hk := Token.kind_of_bare hm
  have hg := (rereads_of_formed he).expression fin (m :: rest) hxs (.of_kind hk ⟨rfl, rfl⟩)
  obtain ⟨t, xs, rfl, hbegins⟩ := begins_of_read he hxs
  exact ⟨t, xs, m, rfl, hbegins, hk, hg⟩

/-! One lemma for each form of statement. -/

theorem rereads_expr {e : Expr} (he : e.Formed N A B) : RereadsStmt A (.expr e) := by
  intro fin ts rest hts _
  obtain ⟨t, xs, m, rfl, hbegins, hk, e', notes, hagain, hg⟩ := expression_semicolon he fin rest hts
  refine ⟨.expr e', notes ++ ([] ++ []), ⟨?_, by simpa using hagain.quiet⟩, ?_⟩
  · simp [Stmt.bare, Stmt.folded, hagain.bare]
  · rw [List.append_assoc]
    change (statement fin (t :: (xs ++ m :: rest))).Gives _ _ _
    rw [statement_of_begins hbegins, expressionStatement]
    refine hg.start fun _ => ?_
    simp only [hk, reduceCtorEq, if_false]
    exact (expect_gives hk).next fun _ => .done

theorem rereads_assign {e v : Expr} (he : e.Formed N A B) (hv : v.Formed N A B) :
    RereadsStmt A (.assign e v) := by
  intro fin ts rest hts _
  obtain ⟨xs, q, zs, rfl, hxs, hq, hzs⟩ := split_tokens hts
  have hkq := Token.kind_of_bare hq
  obtain ⟨r, ys, m, rfl, -, hkm, v', more, hv', hvg⟩ := expression_semicolon hv fin rest hzs
  obtain ⟨e', notes, he', hg⟩ := (rereads_of_formed he).expression fin
    (q :: (r :: ys ++ m :: rest)) hxs (.of_kind hkq ⟨rfl, rfl⟩)
  refine ⟨.assign e' v', notes ++ (more ++ ([] ++ [])), ⟨?_, ?_⟩, ?_⟩
  · simp [Stmt.bare, Stmt.folded, he'.bare, hv'.bare]
  · intro hA
    simp [he'.quiet hA, hv'.quiet hA]
  · obtain ⟨t, xs, rfl, hbegins⟩ := begins_of_read he hxs
    rw [show t :: xs ++ q :: (r :: ys ++ [m]) ++ rest
      = t :: xs ++ q :: (r :: ys ++ m :: rest) by simp]
    change (statement fin (t :: (xs ++ q :: (r :: ys ++ m :: rest)))).Gives _ _ _
    rw [statement_of_begins hbegins, expressionStatement]
    refine hg.start fun _ => ?_
    simp only [hkq, if_true]
    exact hvg.next fun _ => (expect_gives hkm).next fun _ => .done

theorem rereads_return {value : Option Expr} {s : Span} (h : ∀ e ∈ value, e.Formed N A B) :
    RereadsStmt A (.return_ value s) := by
  intro fin ts rest hts _
  cases value with
  | none =>
    obtain ⟨k, ys, rfl, hk, hys⟩ := List.map_eq_cons_iff.mp hts
    obtain ⟨m, ys, rfl, hm, hys⟩ := List.map_eq_cons_iff.mp hys
    obtain rfl := List.map_eq_nil_iff.mp hys
    have hkm := Token.kind_of_bare hm
    refine ⟨.return_ none (k.span + m.span), [] ++ [], ⟨rfl, fun _ => rfl⟩, ?_⟩
    change (statement fin (k :: m :: rest)).Gives _ _ _
    rw [statement]
    simp only [Token.kind_of_bare hk]
    refine .last ?_
    rw [returnStatement, if_pos (show peek fin (m :: rest) = _ from hkm)]
    exact (expect_gives hkm).start fun _ => .done
  | some e =>
    obtain ⟨k, zs, rfl, hk, hzs⟩ := List.map_eq_cons_iff.mp hts
    obtain ⟨t, xs, m, rfl, hbegins, hkm, e', notes, hagain, hg⟩ :=
      expression_semicolon (h e rfl) fin rest hzs
    refine ⟨.return_ (some e') (k.span + m.span), notes ++ ([] ++ []),
      ⟨?_, by simpa using hagain.quiet⟩, ?_⟩
    · simp [Stmt.bare, Stmt.folded, hagain.bare]
    · rw [List.cons_append, List.append_assoc, statement]
      simp only [Token.kind_of_bare hk]
      refine .last ?_
      have hpeek : ¬peek fin (t :: xs ++ ([m] ++ rest)) = .semicolon := ne_of_begins hbegins rfl
      rw [returnStatement, if_neg hpeek]
      exact hg.start fun _ => (expect_gives hkm).next fun _ => .done

theorem rereads_var {name : Token} {init : Option Expr} (hname : name.kind = .identifier)
    (h : ∀ e ∈ init, e.Formed N A B) : RereadsStmt A (.var name init) := by
  intro fin ts rest hts _
  cases init with
  | none =>
    obtain ⟨k, ys, rfl, hk, hys⟩ := List.map_eq_cons_iff.mp hts
    obtain ⟨t, ys, rfl, ht, hys⟩ := List.map_eq_cons_iff.mp hys
    obtain ⟨m, ys, rfl, hm, hys⟩ := List.map_eq_cons_iff.mp hys
    obtain rfl := List.map_eq_nil_iff.mp hys
    have hkm := Token.kind_of_bare hm
    refine ⟨.var t none, [] ++ ([] ++ []), ⟨?_, fun _ => rfl⟩, ?_⟩
    · simp [Stmt.bare, Stmt.folded, ht]
    · change (statement fin (k :: t :: m :: rest)).Gives _ _ _
      rw [statement]
      simp only [Token.kind_of_bare hk]
      refine .last ?_
      rw [varStatement]
      refine (identifier_gives (by rw [Token.kind_eq_of_bare ht, hname])).start fun _ => ?_
      simp only [hkm, reduceCtorEq, if_false]
      exact (expect_gives hkm).next fun _ => .done
  | some e =>
    obtain ⟨k, ys, rfl, hk, hys⟩ := List.map_eq_cons_iff.mp hts
    obtain ⟨t, ys, rfl, ht, hys⟩ := List.map_eq_cons_iff.mp hys
    obtain ⟨q, ys, rfl, hq, hys⟩ := List.map_eq_cons_iff.mp hys
    obtain ⟨r, xs, m, rfl, -, hkm, e', notes, hagain, hg⟩ :=
      expression_semicolon (h e rfl) fin rest hys
    refine ⟨.var t (some e'), [] ++ (notes ++ ([] ++ [])), ⟨?_, by simpa using hagain.quiet⟩, ?_⟩
    · simp [Stmt.bare, Stmt.folded, ht, hagain.bare]
    · rw [show k :: t :: q :: (r :: xs ++ [m]) ++ rest
          = k :: t :: q :: (r :: xs ++ m :: rest) by simp,
        statement]
      simp only [Token.kind_of_bare hk]
      refine .last ?_
      rw [varStatement]
      refine (identifier_gives (by rw [Token.kind_eq_of_bare ht, hname])).start fun _ => ?_
      simp only [Token.kind_of_bare hq, if_true]
      exact hg.next fun _ => (expect_gives hkm).next fun _ => .done

/-- A keyword, what it guards in parentheses, and what follows. -/
theorem split_guard {k : Keyword} {inner bs : List Token}
    (hts : ts.map Token.bare = guardTokens k inner ++ bs) : ∃ t gs ys, ts = t :: (gs ++ ys) ∧
      t.kind = .keyword k ∧
      gs.map Token.bare = .of .leftParen :: (inner ++ [Token.of .rightParen]) ∧
      ys.map Token.bare = bs := by
  obtain ⟨t, zs, rfl, ht, hzs⟩ := List.map_eq_cons_iff.mp hts
  obtain ⟨gs, ys, rfl, hgs, hys⟩ := List.map_eq_append_iff.mp hzs
  exact ⟨t, gs, ys, rfl, Token.kind_of_bare ht, hgs, hys⟩

theorem rereads_if {c : Expr} {body : Stmt} {s : Span} (hc : c.Formed N A B)
    (hbody : RereadsStmt A body) : RereadsStmt A (.if_ (some c) body none s) := by
  intro fin ts rest hts hrest
  obtain ⟨k, gs, ys, rfl, hk, hgs, hys⟩ := split_guard hts
  obtain ⟨c', notes, hc', hg⟩ := parenthesized_gives (rereads_of_formed hc) fin "after 'if'"
    "after if condition" (ys ++ rest) hgs
  have helse : NoElse rest := hrest rfl
  obtain ⟨body', more, hbody', hb⟩ := hbody fin ys rest hys fun _ => helse
  refine ⟨.if_ (some c') body' none (k.span + body'.span), notes ++ (more ++ []), ⟨?_, ?_⟩, ?_⟩
  · have := hbody'.bare
    simp only [Stmt.bare, Stmt.folded] at this
    simp [Stmt.bare, Stmt.folded, hc'.bare, this]
  · intro hA
    simp [hc'.quiet hA, hbody'.quiet hA]
  · rw [List.cons_append, List.append_assoc, statement]
    simp only [hk]
    refine .last ?_
    rw [ifStatement]
    refine hg.start fun _ => hb.next fun _ => ?_
    cases rest with
    | nil => exact .done
    | cons r rest =>
      simp only [if_neg (helse r rfl)]
      exact .done

theorem rereads_ifElse {c : Expr} {body arm : Stmt} {s s' : Span} (hc : c.Formed N A B)
    (hbody : RereadsStmt A body) (hd : body.dangles = false) (harm : RereadsStmt A arm) :
    RereadsStmt A (.if_ (some c) body (some (.if_ none arm none s')) s) := by
  intro fin ts rest hts hrest
  obtain ⟨k, gs, ys, rfl, hk, hgs, hys⟩ := split_guard hts
  obtain ⟨bs, l, as, rfl, hbs, hl, has⟩ := split_tokens hys
  obtain ⟨c', notes, hc', hg⟩ := parenthesized_gives (rereads_of_formed hc) fin "after 'if'"
    "after if condition" (bs ++ (l :: (as ++ rest))) hgs
  obtain ⟨body', more, hbody', hb⟩ :=
    hbody fin bs (l :: (as ++ rest)) hbs (by simp [hd])
  obtain ⟨arm', more', harm', ha⟩ := harm fin as rest has hrest
  refine ⟨.if_ (some c') body' (some (.if_ none arm' none (l.span + arm'.span)))
    (k.span + body'.span + (l.span + arm'.span)), notes ++ (more ++ (more' ++ [])), ⟨?_, ?_⟩, ?_⟩
  · have h1 := hbody'.bare
    have h2 := harm'.bare
    simp only [Stmt.bare, Stmt.folded] at h1 h2
    simp [Stmt.bare, Stmt.folded, hc'.bare, h1, h2]
  · intro hA
    simp [hc'.quiet hA, hbody'.quiet hA, harm'.quiet hA]
  · rw [show k :: (gs ++ (bs ++ l :: as)) ++ rest = k :: (gs ++ (bs ++ l :: (as ++ rest))) by simp,
      statement]
    simp only [hk]
    refine .last ?_
    rw [ifStatement]
    refine hg.start fun _ => hb.next fun _ => ?_
    simp only [if_pos (Token.kind_of_bare hl)]
    exact ha.next fun _ => .done

theorem rereads_while {c : Expr} {body : Stmt} (hc : c.Formed N A B)
    (hbody : RereadsStmt A body) : RereadsStmt A (.while_ c body) := by
  intro fin ts rest hts hrest
  obtain ⟨k, gs, ys, rfl, hk, hgs, hys⟩ := split_guard hts
  obtain ⟨c', notes, hc', hg⟩ := parenthesized_gives (rereads_of_formed hc) fin "after 'while'"
    "after loop condition" (ys ++ rest) hgs
  obtain ⟨body', more, hbody', hb⟩ := hbody fin ys rest hys hrest
  refine ⟨.while_ c' body', notes ++ (more ++ []), ⟨?_, ?_⟩, ?_⟩
  · have := hbody'.bare
    simp only [Stmt.bare, Stmt.folded] at this
    simp [Stmt.bare, Stmt.folded, hc'.bare, this]
  · intro hA
    simp [hc'.quiet hA, hbody'.quiet hA]
  · rw [List.cons_append, List.append_assoc, statement]
    simp only [hk]
    refine .last ?_
    rw [whileStatement]
    exact hg.start fun _ => hb.next fun _ => .done

theorem rereads_doWhile {c : Expr} {body : Stmt} (hbody : RereadsStmt A body)
    (hc : c.Formed N A B) : RereadsStmt A (.doWhile body c) := by
  intro fin ts rest hts hrest
  obtain ⟨k, zs, rfl, hk, hzs⟩ := List.map_eq_cons_iff.mp hts
  obtain ⟨bs, ws, rfl, hbs, hws⟩ := List.map_eq_append_iff.mp hzs
  obtain ⟨w, gs, ys, rfl, hw, hgs, hys⟩ := split_guard hws
  obtain ⟨m, ys, rfl, hm, hys⟩ := List.map_eq_cons_iff.mp hys
  obtain rfl := List.map_eq_nil_iff.mp hys
  have hkm := Token.kind_of_bare hm
  obtain ⟨body', notes, hbody', hb⟩ := hbody fin bs (w :: (gs ++ m :: rest)) hbs fun _ =>
    .of_kind hw (by decide)
  obtain ⟨c', more, hc', hg⟩ := parenthesized_gives (rereads_of_formed hc) fin "after 'while'"
    "after loop condition" (m :: rest) hgs
  refine ⟨.doWhile body' c', notes ++ (([] ++ (more ++ ([] ++ []))) ++ []), ⟨?_, ?_⟩, ?_⟩
  · have := hbody'.bare
    simp only [Stmt.bare, Stmt.folded] at this
    simp [Stmt.bare, Stmt.folded, hc'.bare, this]
  · intro hA
    simp [hc'.quiet hA, hbody'.quiet hA]
  · rw [show k :: (bs ++ w :: (gs ++ [m])) ++ rest = k :: (bs ++ w :: (gs ++ m :: rest)) by simp,
      statement]
    simp only [Token.kind_of_bare hk]
    refine .last ?_
    rw [doStatement]
    refine hb.start fun _ => .next ?_ fun _ => .done
    rw [repetition]
    exact (expect_gives hw).start fun _ => hg.next fun _ => (expect_gives hkm).next fun _ => .done

theorem rereads_foreach {x : Token} {c : Expr} {body : Stmt} (hx : x.kind = .identifier)
    (hc : c.Formed N A B) (hbody : RereadsStmt A body) : RereadsStmt A (.foreach x c body) := by
  intro fin ts rest hts hrest
  obtain ⟨k, gs, ys, rfl, hk, hgs, hys⟩ := split_guard hts
  obtain ⟨p, gs, rfl, hp, hgs⟩ := List.map_eq_cons_iff.mp hgs
  obtain ⟨x', gs, rfl, hx', hgs⟩ := List.map_eq_cons_iff.mp hgs
  obtain ⟨i, gs, rfl, hi, hgs⟩ := List.map_eq_cons_iff.mp hgs
  obtain ⟨c', mark, notes, hc', hg⟩ :=
    (rereads_of_formed hc).closed (.inl rfl) fin "after collection" (ys ++ rest) hgs
  obtain ⟨body', more, hbody', hb⟩ := hbody fin ys rest hys hrest
  refine ⟨.foreach x' c' body', ([] ++ ([] ++ ([] ++ (notes ++ [])))) ++ (more ++ []),
    ⟨?_, ?_⟩, ?_⟩
  · have := hbody'.bare
    simp only [Stmt.bare, Stmt.folded] at this
    simp [Stmt.bare, Stmt.folded, hc'.bare, hx', this]
  · intro hA
    simp [hc'.quiet hA, hbody'.quiet hA]
  · rw [show k :: (p :: x' :: i :: gs ++ ys) ++ rest = k :: p :: x' :: i :: (gs ++ (ys ++ rest)) by
      simp, statement]
    simp only [hk]
    refine .last ?_
    rw [foreachStatement]
    refine .start (a := (x', c')) ?_ fun _ => hb.next fun _ => .done
    rw [iteration]
    refine (expect_gives (Token.kind_of_bare hp)).start fun _ => ?_
    refine (identifier_gives (by rw [Token.kind_eq_of_bare hx', hx])).next fun _ => ?_
    exact (expect_gives (Token.kind_of_bare hi)).next fun _ => hg.next fun _ => .done

/-! Blocks. -/

structure AgainBlock (A : Prop) (ss ss' : List Stmt) (notes : List Diagnostic) : Prop where
  bare : ss'.map Stmt.bare = ss.map fun s => s.folded.bare
  quiet : A → notes = []

theorem noElse_of_statements {ss : List Stmt} (hss : ∀ s ∈ ss, s.Formed N A B)
    (hts : ts.map Token.bare = Stmt.tokensAll ss ++ [Token.of .rightBrace]) :
    NoElse (ts ++ rest) := by
  cases ss with
  | nil =>
    obtain ⟨t, ys, rfl, ht, -⟩ := List.map_eq_cons_iff.mp hts
    exact .of_kind (Token.kind_of_bare ht) (by decide)
  | cons s ss =>
    obtain ⟨b, bs, hbs, helse, -⟩ := leads_stmt (hss s List.mem_cons_self)
    rw [Stmt.tokensAll, hbs] at hts
    obtain ⟨t, ys, rfl, rfl, -⟩ := List.map_eq_cons_iff.mp hts
    exact .of_kind rfl helse

theorem statements_gives {ss : List Stmt} (hss : ∀ s ∈ ss, s.Formed N A B)
    (ih : ∀ s ∈ ss, RereadsStmt A s) (fin brace : Token) (acc : List Stmt)
    {notes : List Diagnostic} (hq : A → notes = []) (rest : List Token)
    (hts : ts.map Token.bare = Stmt.tokensAll ss ++ [Token.of .rightBrace]) {all : List Token}
    (h : Shorter (ts ++ rest) all) : ∃ ss' s notes', AgainBlock A ss ss' notes' ∧
      (statements fin brace acc notes (ts ++ rest) h).Gives
        ⟨acc.reverse ++ ss', s⟩ rest notes' := by
  induction ss generalizing acc notes ts with
  | nil =>
    obtain ⟨t, ys, rfl, ht, hys⟩ := List.map_eq_cons_iff.mp hts
    obtain rfl := List.map_eq_nil_iff.mp hys
    refine ⟨[], brace.span + t.span, notes.reverse, ⟨rfl, fun hA => by simp [hq hA]⟩, ?_⟩
    change (statements fin brace acc notes (t :: rest) h).Gives _ _ _
    rw [statements, if_pos (Token.kind_of_bare ht), List.append_nil]
    exact .done
  | cons s ss ihss =>
    have hss' : ∀ s ∈ ss, s.Formed N A B := fun s hs => hss s (List.mem_cons_of_mem _ hs)
    rw [Stmt.tokensAll, List.append_assoc] at hts
    obtain ⟨xs, ys, rfl, hxs, hys⟩ := List.map_eq_append_iff.mp hts
    obtain ⟨s', more, hs', hlt, hg⟩ := ih s List.mem_cons_self fin xs (ys ++ rest) hxs fun _ =>
      noElse_of_statements hss' hys
    have hq' : A → more.reverse ++ notes = [] := fun hA => by simp [hq hA, hs'.quiet hA]
    have hlt' : Shorter (ys ++ rest) all := by
      rw [List.append_assoc] at h
      exact hlt.trans h
    obtain ⟨ss'', sp, notes', hagain, hgs⟩ := ihss hss'
      (fun s hs => ih s (List.mem_cons_of_mem _ hs)) (s' :: acc) hq' hys hlt'
    refine ⟨s' :: ss'', sp, notes', ⟨by simp [hs'.bare, hagain.bare], hagain.quiet⟩, ?_⟩
    obtain ⟨b, bs, hbs, -, hbrace⟩ := leads_stmt (hss s List.mem_cons_self)
    rw [hbs] at hxs
    obtain ⟨t, xs, rfl, rfl, -⟩ := List.map_eq_cons_iff.mp hxs
    have hbrace' : t.kind ≠ .rightBrace := hbrace
    rw [List.reverse_cons, List.append_assoc] at hgs
    simp only [List.cons_append, List.append_assoc] at h hg ⊢
    rw [statements, if_neg hbrace', hg]
    exact hgs

/-- The tokens of a block. -/
theorem block_gives {ss : List Stmt} (hss : ∀ s ∈ ss, s.Formed N A B)
    (ih : ∀ s ∈ ss, RereadsStmt A s) (fin : Token) (rest : List Token)
    (hts : ts.map Token.bare = .of .leftBrace :: (Stmt.tokensAll ss ++ [Token.of .rightBrace])) :
    ∃ ss' s notes, AgainBlock A ss ss' notes ∧
      (block fin (ts ++ rest)).Gives ⟨ss', s⟩ rest notes := by
  obtain ⟨b, ys, rfl, hb, hys⟩ := List.map_eq_cons_iff.mp hts
  obtain ⟨ss', s, notes, hagain, hg⟩ := statements_gives hss ih fin b [] (fun _ => rfl) rest hys
    (.tail b (ys ++ rest))
  refine ⟨ss', s, [] ++ notes, hagain, ?_⟩
  change (block fin (b :: (ys ++ rest))).Gives _ _ _
  rw [block]
  exact (expect_gives (Token.kind_of_bare hb)).start fun _ => hg

theorem rereads_block {ss : List Stmt} {s : Span} (hss : ∀ s ∈ ss, s.Formed N A B)
    (ih : ∀ s ∈ ss, RereadsStmt A s) : RereadsStmt A (.block ⟨ss, s⟩) := by
  intro fin ts rest hts _
  obtain ⟨ss', s', notes, hagain, hg⟩ := block_gives hss ih fin rest hts
  refine ⟨.block ⟨ss', s'⟩, notes ++ [], ⟨?_, by simpa using hagain.quiet⟩, ?_⟩
  · have := hagain.bare
    simp only [Stmt.bare, Stmt.folded] at this
    simp [Stmt.bare, Stmt.folded, Function.comp_def, this]
  · obtain ⟨b, ys, rfl, hb, hys⟩ := List.map_eq_cons_iff.mp hts
    rw [List.cons_append] at hg ⊢
    rw [statement]
    simp only [Token.kind_of_bare hb]
    exact hg.start fun _ => .done

/-- The tokens of a formed statement are read as that statement. -/
theorem rereads_of_formed_stmt {s : Stmt} (h : s.Formed N A B) : RereadsStmt A s := by
  induction h with
  | block hss ih => exact rereads_block hss ih
  | expr he => exact rereads_expr he
  | return_ hv => exact rereads_return hv
  | if_ hc hb ih => exact rereads_if hc ih
  | ifElse hc hb hd ha ihb iha => exact rereads_ifElse hc ihb hd iha
  | while_ hc hb ih => exact rereads_while hc ih
  | doWhile hb hc ih => exact rereads_doWhile ih hc
  | foreach hk hn hc hb ih => exact rereads_foreach hk hc ih
  | assign ht hv => exact rereads_assign ht hv
  | var hk hn hi => exact rereads_var hk hi

/-! Declarations. -/

theorem namedItem_gives {k : Keyword} {name : Token} (hname : name.kind = .identifier)
    (nameContext endContext : String) (fin : Token) (rest : List Token)
    (hts : ts.map Token.bare = itemTokens k name) : ∃ name', name'.bare = name.bare ∧
      (namedItem k nameContext endContext fin (ts ++ rest)).Gives name' rest [] := by
  obtain ⟨k', ys, rfl, hk, hys⟩ := List.map_eq_cons_iff.mp hts
  obtain ⟨t, ys, rfl, ht, hys⟩ := List.map_eq_cons_iff.mp hys
  obtain ⟨m, ys, rfl, hm, hys⟩ := List.map_eq_cons_iff.mp hys
  obtain rfl := List.map_eq_nil_iff.mp hys
  refine ⟨t, ht, ?_⟩
  change (namedItem k nameContext endContext fin (k' :: t :: m :: rest)).Gives
    t rest ([] ++ ([] ++ ([] ++ [])))
  rw [namedItem]
  refine (expect_gives (Token.kind_of_bare hk)).start fun _ => ?_
  refine (identifier_gives (by rw [Token.kind_eq_of_bare ht, hname])).next fun _ => ?_
  exact (expect_gives (Token.kind_of_bare hm)).next fun _ => .done

theorem parametersTail_gives {names : List Token} (hnames : ∀ t ∈ names, t.kind = .identifier)
    (fin : Token) (acc : List Token) {close : Token} (hclose : close.kind = .rightParen)
    (hts : ts.map Token.bare = names.flatMap fun t => [.of .comma, t.bare]) {all : List Token}
    (h : Shorter (ts ++ close :: rest) all) :
    ∃ names', names'.map Token.bare = names.map Token.bare ∧
      (parametersTail fin acc (ts ++ close :: rest) h).Gives (acc.reverse ++ names')
        (close :: rest) [] := by
  induction names generalizing acc ts with
  | nil =>
    obtain rfl := List.map_eq_nil_iff.mp hts
    refine ⟨[], rfl, ?_⟩
    change (parametersTail fin acc (close :: rest) h).Gives _ _ _
    rw [parametersTail, if_neg (by rw [hclose]; decide), List.append_nil]
    exact .done
  | cons name names ih =>
    obtain ⟨c, ys, rfl, hc, hys⟩ := List.map_eq_cons_iff.mp hts
    obtain ⟨t, ys, rfl, ht, hys⟩ := List.map_eq_cons_iff.mp hys
    have hk : t.kind = .identifier := by
      rw [Token.kind_eq_of_bare ht, hnames name List.mem_cons_self]
    obtain ⟨names', hnames', hg⟩ := ih (fun t ht => hnames t (List.mem_cons_of_mem _ ht)) (t :: acc)
      hys h.of_cons.of_cons
    refine ⟨t :: names', by simp [ht, hnames'], ?_⟩
    rw [List.reverse_cons, List.append_assoc] at hg
    change (parametersTail fin acc (c :: t :: (ys ++ close :: rest)) h).Gives _ _ _
    rw [parametersTail, if_pos (Token.kind_of_bare hc)]
    simp only [identifier, if_pos hk]
    exact hg

theorem finishParameters_gives {function close : Token} {names : List Token}
    (hclose : close.kind = .rightParen) (hfew : A → names.length ≤ ParseFault.maxArguments) :
    ∃ notes, (A → notes = []) ∧
      (finishParameters function names fin (close :: rest)).Gives names rest notes := by
  unfold finishParameters
  refine ⟨[] ++ _, fun hA => ?_, (expect_gives hclose).start fun _ => .done⟩
  have := hfew hA
  rw [List.nil_append, if_neg (by omega)]

theorem parameters_gives {names : List Token} (hnames : ∀ t ∈ names, t.kind = .identifier)
    (hfew : A → names.length ≤ ParseFault.maxArguments) (function fin : Token) (rest : List Token)
    (hts : ts.map Token.bare = .of .leftParen :: (commaTokens names ++ [Token.of .rightParen])) :
    ∃ names' notes, names'.map Token.bare = names.map Token.bare ∧ (A → notes = []) ∧
      (parameters function fin (ts ++ rest)).Gives names' rest notes := by
  obtain ⟨p, ys, rfl, hp, hys⟩ := List.map_eq_cons_iff.mp hts
  have hkp := Token.kind_of_bare hp
  obtain ⟨xs, q, ys, rfl, hxs, hq, hys⟩ := split_tokens hys
  obtain rfl := List.map_eq_nil_iff.mp hys
  have hkq := Token.kind_of_bare hq
  cases names with
  | nil =>
    obtain rfl := List.map_eq_nil_iff.mp hxs
    obtain ⟨notes, hquiet, hg⟩ : ∃ notes, (A → notes = []) ∧
      (finishParameters function [] fin (q :: rest)).Gives [] rest notes :=
        finishParameters_gives hkq hfew
    refine ⟨[], [] ++ notes, rfl, hquiet, ?_⟩
    change (parameters function fin (p :: q :: rest)).Gives _ _ _
    rw [parameters]
    refine (expect_gives hkp).start fun _ => ?_
    rw [if_pos (show peek fin (q :: rest) = _ from hkq)]
    exact hg.last
  | cons name names =>
    obtain ⟨t, xs, rfl, ht, hxs⟩ := List.map_eq_cons_iff.mp hxs
    have hk : t.kind = .identifier := by
      rw [Token.kind_eq_of_bare ht, hnames name List.mem_cons_self]
    have hs : Shorter (xs ++ q :: rest) (p :: t :: (xs ++ q :: rest)) :=
      (Shorter.tail t _).trans (.tail p _)
    obtain ⟨names', hnames', htail⟩ := parametersTail_gives
      (fun t ht => hnames t (List.mem_cons_of_mem _ ht)) fin [t] hkq hxs hs
    have hlength : (t :: names').length = (name :: names).length := by
      have := congrArg List.length hnames'
      simpa using this
    obtain ⟨notes, hquiet, hg⟩ : ∃ notes, (A → notes = []) ∧
        (finishParameters function (t :: names') fin (q :: rest)).Gives (t :: names') rest notes :=
      finishParameters_gives hkq (by rwa [hlength])
    refine ⟨t :: names', [] ++ ([] ++ ([] ++ notes)), by simp [ht, hnames'], hquiet, ?_⟩
    rw [show p :: (t :: xs ++ [q]) ++ rest = p :: t :: (xs ++ q :: rest) by simp, parameters]
    refine (expect_gives hkp).start fun _ => ?_
    have hpeek : ¬peek fin (t :: (xs ++ q :: rest)) = .rightParen := by
      change ¬t.kind = .rightParen
      rw [hk]
      decide
    rw [if_neg hpeek]
    exact (identifier_gives hk).next fun _ => htail.start fun _ => hg.last

/-- The tokens of a formed subroutine are read as that subroutine. -/
theorem subroutine_gives {s : Subroutine} (hs : s.Formed A B) (fin : Token) (rest : List Token)
    (hts : ts.map Token.bare = (Stmt.subroutine s).tokens) : ∃ s' notes,
      s'.bare = s.folded.bare ∧ (A → notes = []) ∧
      (subroutine fin (ts ++ rest)).Gives s' rest notes := by
  obtain ⟨name, names, ⟨ss, sp⟩⟩ := s
  obtain ⟨k, ys, rfl, hk, hys⟩ := List.map_eq_cons_iff.mp hts
  obtain ⟨t, ys, rfl, ht, hys⟩ := List.map_eq_cons_iff.mp hys
  obtain ⟨ps, bs, rfl, hps, hbs⟩ := List.map_eq_append_iff.mp hys
  obtain ⟨names', notes, hnames, hquiet, hp⟩ := parameters_gives
    (fun t ht => (hs.parameters t ht).1) hs.few t fin (bs ++ rest) hps
  obtain ⟨ss', sp', more, hagain, hb⟩ := block_gives hs.body
    (fun s h => rereads_of_formed_stmt (hs.body s h)) fin rest hbs
  refine ⟨⟨t, names', ⟨ss', sp'⟩⟩, [] ++ ([] ++ (notes ++ (more ++ []))), ?_, ?_, ?_⟩
  · have := hagain.bare
    simp only [Stmt.bare, Stmt.folded] at this
    simp [SubroutineOf.bare, SubroutineOf.folded, SubroutineOf.rebuild, Function.comp_def, ht,
      hnames, this]
  · intro hA
    simp [hquiet hA, hagain.quiet hA]
  · rw [show k :: t :: (ps ++ bs) ++ rest = k :: t :: (ps ++ (bs ++ rest)) by simp, subroutine]
    refine (expect_gives (Token.kind_of_bare hk)).start fun _ => ?_
    refine (identifier_gives (by rw [Token.kind_eq_of_bare ht, hs.name.1])).next fun _ => ?_
    exact hp.next fun _ => hb.next fun _ => .done

theorem subroutine_leads {s : Subroutine}
    (hts : ts.map Token.bare = (Stmt.subroutine s).tokens) :
    ∃ t rest, ts = t :: rest ∧ t.kind = .keyword .function := by
  obtain ⟨t, rest, rfl, ht, -⟩ := List.map_eq_cons_iff.mp hts
  exact ⟨t, rest, rfl, Token.kind_of_bare ht⟩

/-! Classes. -/

theorem classHead_gives {base : Option Token} (hbase : ∀ t ∈ base, t.IsName) (fin : Token)
    (rest : List Token)
    (hts : ts.map Token.bare = baseTokens base ++ [Token.of .leftBrace]) :
    ∃ base', base'.map Token.bare = base.map Token.bare ∧
      (classHead fin (ts ++ rest)).Gives base' rest [] := by
  cases base with
  | none =>
    obtain ⟨b, ys, rfl, hb, hys⟩ := List.map_eq_cons_iff.mp hts
    obtain rfl := List.map_eq_nil_iff.mp hys
    have hk := Token.kind_of_bare hb
    refine ⟨none, rfl, ?_⟩
    change (classHead fin (b :: rest)).Gives none rest ([] ++ [])
    unfold classHead
    simp only [hk, reduceCtorEq, if_false]
    exact (expect_gives hk).start fun _ => .done
  | some base =>
    obtain ⟨c, ys, rfl, hc, hys⟩ := List.map_eq_cons_iff.mp hts
    obtain ⟨t, ys, rfl, ht, hys⟩ := List.map_eq_cons_iff.mp hys
    obtain ⟨b, ys, rfl, hb, hys⟩ := List.map_eq_cons_iff.mp hys
    obtain rfl := List.map_eq_nil_iff.mp hys
    refine ⟨some t, by simp [ht], ?_⟩
    change (classHead fin (c :: t :: b :: rest)).Gives (some t) rest ([] ++ ([] ++ []))
    unfold classHead
    simp only [Token.kind_of_bare hc, if_true]
    refine (identifier_gives (by rw [Token.kind_eq_of_bare ht, (hbase base rfl).1])).next
      fun _ => ?_
    exact .last ((expect_gives (Token.kind_of_bare hb)).start fun _ => .done)

theorem methodTokens_eq (ms : List Subroutine) :
    Stmt.methodTokens ms = ms.flatMap fun m => (Stmt.subroutine m).tokens := by
  induction ms with
  | nil => rfl
  | cons m ms ih =>
    obtain ⟨name, names, ⟨ss, s⟩⟩ := m
    simp [Stmt.methodTokens, Stmt.tokens, ih]

/-- A member that is read is added to the class, and the others follow. -/
theorem members_step {decl decl' : ClassDecl} (notes : List Diagnostic)
    {more : List Diagnostic} {t : Token} {rest' all : List Token} (h : Shorter (t :: rest) all)
    (ht : t.kind ≠ .rightBrace) (hm : (member fin decl (t :: rest)).Gives decl' rest' more) :
    ∃ h', members fin decl notes (t :: rest) h
      = members fin decl' (more.reverse ++ notes) rest' h' := by
  obtain ⟨hs, hm⟩ := hm
  exact ⟨hs.within h, by rw [members, if_neg ht, hm]⟩

theorem methods_give {ms : List Subroutine} (hms : ∀ m ∈ ms, m.Formed A B) (fin : Token)
    (decl : ClassDecl) {notes : List Diagnostic} (hq : A → notes = []) (rest : List Token)
    (hts : ts.map Token.bare
      = ms.flatMap (fun m => (Stmt.subroutine m).tokens) ++ [Token.of .rightBrace])
    {all : List Token} (h : Shorter (ts ++ rest) all) :
    ∃ (ms' : List Subroutine) (notes' : List Diagnostic),
      ms'.map SubroutineOf.bare = ms.map (fun m => m.folded.bare) ∧ (A → notes' = []) ∧
      (members fin decl notes (ts ++ rest) h).Gives
        (finishClass { decl with methods := ms'.reverse ++ decl.methods }) rest notes' := by
  induction ms generalizing decl notes ts with
  | nil =>
    obtain ⟨t, ys, rfl, ht, hys⟩ := List.map_eq_cons_iff.mp hts
    obtain rfl := List.map_eq_nil_iff.mp hys
    refine ⟨[], notes.reverse, rfl, fun hA => by simp [hq hA], ?_⟩
    change (members fin decl notes (t :: rest) h).Gives _ _ _
    rw [members, if_pos (Token.kind_of_bare ht)]
    exact .done
  | cons m ms ih =>
    rw [List.flatMap_cons, List.append_assoc] at hts
    obtain ⟨xs, ys, rfl, hxs, hys⟩ := List.map_eq_append_iff.mp hts
    obtain ⟨m', more, hm', hquiet, hg⟩ :=
      subroutine_gives (hms m List.mem_cons_self) fin (ys ++ rest) hxs
    obtain ⟨t, xs, rfl, ht⟩ := subroutine_leads hxs
    have hmember : (member fin decl (t :: (xs ++ (ys ++ rest)))).Gives
        { decl with methods := m' :: decl.methods } (ys ++ rest) (more ++ []) := by
      rw [member, show peek fin (t :: (xs ++ (ys ++ rest))) = _ from ht]
      exact hg.start fun _ => .done
    simp only [List.cons_append, List.append_assoc] at h ⊢
    obtain ⟨h', hstep⟩ := members_step notes h (by rw [ht]; decide) hmember
    have hq' : A → (more ++ []).reverse ++ notes = [] := fun hA => by simp [hq hA, hquiet hA]
    obtain ⟨ms', notes', hms', hquiet', hg'⟩ := ih (fun m hm => hms m (List.mem_cons_of_mem _ hm))
      { decl with methods := m' :: decl.methods } hq' hys h'
    refine ⟨m' :: ms', notes', by simp [hm', hms'], hquiet', ?_⟩
    rw [hstep, List.reverse_cons, List.append_assoc]
    exact hg'

theorem members_give {properties : List Token} (hp : ∀ t ∈ properties, t.IsName)
    {ms : List Subroutine} (hms : ∀ m ∈ ms, m.Formed A B) (fin : Token) (decl : ClassDecl)
    {notes : List Diagnostic} (hq : A → notes = []) (rest : List Token)
    (hts : ts.map Token.bare = properties.flatMap (itemTokens .property) ++
      (ms.flatMap (fun m => (Stmt.subroutine m).tokens) ++ [Token.of .rightBrace]))
    {all : List Token} (h : Shorter (ts ++ rest) all) :
    ∃ (properties' : List Token) (ms' : List Subroutine) (notes' : List Diagnostic),
      properties'.map Token.bare = properties.map Token.bare ∧
      ms'.map SubroutineOf.bare = ms.map (fun m => m.folded.bare) ∧ (A → notes' = []) ∧
      (members fin decl notes (ts ++ rest) h).Gives
        (finishClass { decl with
          properties := properties'.reverse ++ decl.properties
          methods := ms'.reverse ++ decl.methods }) rest notes' := by
  induction properties generalizing decl notes ts with
  | nil =>
    obtain ⟨ms', notes', hms', hquiet, hg⟩ := methods_give hms fin decl hq rest hts h
    exact ⟨[], ms', notes', rfl, hms', hquiet, hg⟩
  | cons p properties ih =>
    rw [List.flatMap_cons, List.append_assoc] at hts
    obtain ⟨xs, ys, rfl, hxs, hys⟩ := List.map_eq_append_iff.mp hts
    obtain ⟨p', hp', hg⟩ := namedItem_gives (hp p List.mem_cons_self).1 "for property name"
      "after property declaration" fin (ys ++ rest) hxs
    obtain ⟨t, xs, rfl, ht, -⟩ := List.map_eq_cons_iff.mp hxs
    have hk := Token.kind_of_bare ht
    have hmember : (member fin decl (t :: (xs ++ (ys ++ rest)))).Gives
        { decl with properties := p' :: decl.properties } (ys ++ rest) ([] ++ []) := by
      rw [member, show peek fin (t :: (xs ++ (ys ++ rest))) = _ from hk]
      exact hg.start fun _ => .done
    simp only [List.cons_append, List.append_assoc] at h ⊢
    obtain ⟨h', hstep⟩ := members_step notes h (by rw [hk]; decide) hmember
    obtain ⟨properties', ms', notes', hps', hms', hquiet', hg'⟩ :=
      ih (fun t ht => hp t (List.mem_cons_of_mem _ ht))
        { decl with properties := p' :: decl.properties } hq hys h'
    refine ⟨p' :: properties', ms', notes', by simp [hp', hps'], hms', hquiet', ?_⟩
    rw [hstep, List.reverse_cons, List.append_assoc]
    exact hg'

/-- The tokens of a formed class are read as that class. -/
theorem classDeclaration_gives {c : ClassDecl} (hc : c.Formed A B) (fin : Token)
    (rest : List Token) (hts : ts.map Token.bare = (Stmt.classDecl c).tokens) : ∃ c' notes,
      c'.bare = c.folded.bare ∧ (A → notes = []) ∧
      (classDeclaration fin (ts ++ rest)).Gives c' rest notes := by
  obtain ⟨name, base, properties, methods⟩ := c
  rw [Stmt.tokens, methodTokens_eq, ClassDeclOf.headTokens, List.cons_append,
    List.cons_append] at hts
  obtain ⟨k, ys, rfl, hk, hys⟩ := List.map_eq_cons_iff.mp hts
  obtain ⟨t, ys, rfl, ht, hys⟩ := List.map_eq_cons_iff.mp hys
  rw [List.append_assoc, List.cons_append, ← List.singleton_append, ← List.append_assoc] at hys
  obtain ⟨bs, ms, rfl, hbs, hms⟩ := List.map_eq_append_iff.mp hys
  obtain ⟨base', hbase, hhead⟩ := classHead_gives hc.base fin (ms ++ rest) hbs
  have hs : Shorter (ms ++ rest) (k :: t :: (bs ++ (ms ++ rest))) := by
    obtain ⟨hlt, -⟩ := hhead
    exact hlt.trans ((Shorter.tail t _).trans (.tail k _))
  obtain ⟨properties', ms', notes, hps, hms', hquiet, hg⟩ := members_give hc.properties hc.methods
    fin ⟨t, base', [], []⟩ (fun _ => rfl) rest hms hs
  refine ⟨⟨t, base', properties', ms'⟩, [] ++ ([] ++ ([] ++ notes)), ?_, hquiet, ?_⟩
  · simp only [SubroutineOf.bare, SubroutineOf.folded] at hms'
    simp [ClassDeclOf.bare, ClassDeclOf.folded, ClassDeclOf.rebuild, Function.comp_def, ht, hbase,
      hps, hms']
  · rw [show k :: t :: (bs ++ ms) ++ rest = k :: t :: (bs ++ (ms ++ rest)) by simp,
      classDeclaration]
    refine (expect_gives (Token.kind_of_bare hk)).start fun _ => ?_
    refine (identifier_gives (by rw [Token.kind_eq_of_bare ht, hc.name.1])).next fun _ => ?_
    refine hhead.next fun _ => ?_
    simpa [finishClass] using hg

/-! Units. -/

theorem declarations_step {u u' : SourceUnit} {notes more : List Diagnostic} {t : Token}
    {rest' : List Token} (hd : (declaration fin u (t :: rest)).Gives u' rest' more) :
    declarations fin u notes (t :: rest) = declarations fin u' (more.reverse ++ notes) rest' := by
  obtain ⟨hs, hd⟩ := hd
  rw [declarations, hd]

def RereadsOnto (A : Prop) (fin : Token) (u : SourceUnit) (notes : List Diagnostic)
    (ts : List Token) (globals : List Token) (functions : List Subroutine)
    (classes : List ClassDecl) : Prop :=
  ∃ (gs : List Token) (fs : List Subroutine) (cs : List ClassDecl),
    gs.map Token.bare = globals.map Token.bare ∧
    fs.map SubroutineOf.bare = functions.map (fun f => f.folded.bare) ∧
    cs.map ClassDeclOf.bare = classes.map (fun c => c.folded.bare) ∧
    (declarations fin u notes ts).1 = finishUnit { u with
      globals := gs.reverse ++ u.globals
      functions := fs.reverse ++ u.functions
      classes := cs.reverse ++ u.classes } ∧
    (A → (declarations fin u notes ts).2 = [])

theorem classes_reread {classes : List ClassDecl} (hcs : ∀ c ∈ classes, c.Formed A B)
    (fin : Token) (u : SourceUnit) {notes : List Diagnostic} (hq : A → notes = [])
    (hts : ts.map Token.bare = classes.flatMap fun c => (Stmt.classDecl c).tokens) :
    RereadsOnto A fin u notes ts [] [] classes := by
  induction classes generalizing u notes ts with
  | nil =>
    obtain rfl := List.map_eq_nil_iff.mp hts
    refine ⟨[], [], [], rfl, rfl, rfl, ?_, fun hA => ?_⟩
    · rw [declarations]
      rfl
    · rw [declarations, hq hA]
      rfl
  | cons c classes ih =>
    obtain ⟨xs, ys, rfl, hxs, hys⟩ := List.map_eq_append_iff.mp hts
    obtain ⟨c', more, hc', hquiet, hg⟩ :=
      classDeclaration_gives (hcs c List.mem_cons_self) fin ys hxs
    obtain ⟨t, xs, rfl, ht, -⟩ := List.map_eq_cons_iff.mp hxs
    have hd : (declaration fin u (t :: (xs ++ ys))).Gives { u with classes := c' :: u.classes } ys
        (more ++ []) := by
      rw [declaration, show peek fin (t :: (xs ++ ys)) = _ from Token.kind_of_bare ht]
      exact hg.start fun _ => .done
    have hq' : A → (more ++ []).reverse ++ notes = [] := fun hA => by simp [hq hA, hquiet hA]
    obtain ⟨gs, fs, cs, hgs, hfs, hcs', hu, hquiet'⟩ :=
      ih (fun c hc => hcs c (List.mem_cons_of_mem _ hc)) { u with classes := c' :: u.classes } hq'
        hys
    refine ⟨gs, fs, c' :: cs, hgs, hfs, by simp [hc', hcs'], ?_, ?_⟩
    · rw [List.cons_append, declarations_step hd, hu]
      simp
    · rw [List.cons_append, declarations_step hd]
      exact hquiet'

theorem functions_reread {functions : List Subroutine} (hfs : ∀ f ∈ functions, f.Formed A B)
    {classes : List ClassDecl} (hcs : ∀ c ∈ classes, c.Formed A B) (fin : Token) (u : SourceUnit)
    {notes : List Diagnostic} (hq : A → notes = [])
    (hts : ts.map Token.bare = functions.flatMap (fun f => (Stmt.subroutine f).tokens) ++
      classes.flatMap fun c => (Stmt.classDecl c).tokens) :
    RereadsOnto A fin u notes ts [] functions classes := by
  induction functions generalizing u notes ts with
  | nil => exact classes_reread hcs fin u hq hts
  | cons f functions ih =>
    rw [List.flatMap_cons, List.append_assoc] at hts
    obtain ⟨xs, ys, rfl, hxs, hys⟩ := List.map_eq_append_iff.mp hts
    obtain ⟨f', more, hf', hquiet, hg⟩ := subroutine_gives (hfs f List.mem_cons_self) fin ys hxs
    obtain ⟨t, xs, rfl, ht⟩ := subroutine_leads hxs
    have hd : (declaration fin u (t :: (xs ++ ys))).Gives
        { u with functions := f' :: u.functions } ys (more ++ []) := by
      rw [declaration, show peek fin (t :: (xs ++ ys)) = _ from ht]
      exact hg.start fun _ => .done
    have hq' : A → (more ++ []).reverse ++ notes = [] := fun hA => by simp [hq hA, hquiet hA]
    obtain ⟨gs, fs, cs, hgs, hfs', hcs', hu, hquiet'⟩ :=
      ih (fun f hf => hfs f (List.mem_cons_of_mem _ hf)) { u with functions := f' :: u.functions }
        hq' hys
    refine ⟨gs, f' :: fs, cs, hgs, by simp [hf', hfs'], hcs', ?_, ?_⟩
    · rw [List.cons_append, declarations_step hd, hu]
      simp
    · rw [List.cons_append, declarations_step hd]
      exact hquiet'

theorem globals_reread {globals : List Token} (hgs : ∀ t ∈ globals, t.IsName)
    {functions : List Subroutine} (hfs : ∀ f ∈ functions, f.Formed A B)
    {classes : List ClassDecl} (hcs : ∀ c ∈ classes, c.Formed A B) (fin : Token) (u : SourceUnit)
    {notes : List Diagnostic} (hq : A → notes = [])
    (hts : ts.map Token.bare = globals.flatMap (itemTokens .global) ++
      (functions.flatMap (fun f => (Stmt.subroutine f).tokens) ++
        classes.flatMap fun c => (Stmt.classDecl c).tokens)) :
    RereadsOnto A fin u notes ts globals functions classes := by
  induction globals generalizing u ts with
  | nil => exact functions_reread hfs hcs fin u hq hts
  | cons g globals ih =>
    rw [List.flatMap_cons, List.append_assoc] at hts
    obtain ⟨xs, ys, rfl, hxs, hys⟩ := List.map_eq_append_iff.mp hts
    obtain ⟨g', hg', hg⟩ := namedItem_gives (hgs g List.mem_cons_self).1 "after 'global'"
      "after global declaration" fin ys hxs
    obtain ⟨t, xs, rfl, ht, -⟩ := List.map_eq_cons_iff.mp hxs
    have hd : (declaration fin u (t :: (xs ++ ys))).Gives { u with globals := g' :: u.globals } ys
        ([] ++ []) := by
      rw [declaration, show peek fin (t :: (xs ++ ys)) = _ from Token.kind_of_bare ht]
      exact hg.start fun _ => .done
    obtain ⟨gs, fs, cs, hgs', hfs', hcs', hu, hquiet'⟩ :=
      ih (fun t ht => hgs t (List.mem_cons_of_mem _ ht)) { u with globals := g' :: u.globals } hys
    refine ⟨g' :: gs, fs, cs, by simp [hg', hgs'], hfs', hcs', ?_, ?_⟩
    · rw [List.cons_append, declarations_step hd]
      exact hu.trans (by simp)
    · rw [List.cons_append, declarations_step hd]
      exact hquiet'

/-- The tokens of a formed unit are read as that unit, and without complaint if `A`. -/
theorem declarations_reread {u : SourceUnit} (hu : u.Formed A B) (fin : Token)
    (file : Option String) (hts : ts.map Token.bare = u.tokens) :
    (declarations fin { file } [] ts).1.bare = { u.folded.bare with file } ∧
      (A → (declarations fin { file } [] ts).2 = []) := by
  obtain ⟨gs, fs, cs, hgs, hfs, hcs, h, hquiet⟩ :=
    globals_reread hu.globals hu.functions hu.classes fin { file } (fun _ => rfl) hts
  refine ⟨?_, hquiet⟩
  rw [h]
  simp only [SubroutineOf.bare, SubroutineOf.folded] at hfs
  simp only [ClassDeclOf.bare, ClassDeclOf.folded] at hcs
  simp [SourceUnit.bare, SourceUnit.folded, SourceUnit.rebuild, finishUnit, Function.comp_def, hgs,
    hfs, hcs]

end Parser

end Lss
