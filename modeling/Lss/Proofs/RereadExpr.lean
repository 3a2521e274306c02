import Lss.Proofs.Formed

/-!
# Reading the tokens of a tree: expressions

The tokens of a formed expression, in front of tokens that cannot be part of it, are read as that
expression again, with the places of the tokens and with every minus before a number made part of
the number.
-/
namespace Lss

namespace Reply

variable {α β : Type} {ss ts rest rest' : List Token} {a : α} {b : β} {notes more : List Diagnostic}

def Gives (r : Reply α ts) (a : α) (rest : List Token) (notes : List Diagnostic) : Prop :=
  ∃ h, r = .done a rest notes h

theorem Gives.start {r : Reply α ts}
    {f : (a : α) → (rest : List Token) → Shorter rest ts → Reply β ts} (h : r.Gives a rest notes)
    (hf : ∀ hs, (f a rest hs).Gives b rest' more) : (r.start f).Gives b rest' (notes ++ more) := by
  obtain ⟨hs, rfl⟩ := h
  obtain ⟨hs', hfa⟩ := hf hs
  refine ⟨hs', ?_⟩
  rw [Reply.start, hfa]
  rfl

theorem Gives.next {r : Reply α ss} {hss : Shorter ss ts}
    {f : (a : α) → (rest : List Token) → Shorter rest ts → Reply β ts} (h : r.Gives a rest notes)
    (hf : ∀ hs, (f a rest hs).Gives b rest' more) :
    (r.next hss f).Gives b rest' (notes ++ more) := by
  obtain ⟨hs, rfl⟩ := h
  obtain ⟨hs', hfa⟩ := hf (hs.trans hss)
  refine ⟨hs', ?_⟩
  rw [Reply.next, hfa]
  rfl

theorem Gives.last {r : Reply α ss} {hss : Shorter ss ts} (h : r.Gives a rest notes) :
    (r.last hss).Gives a rest notes := by
  obtain ⟨hs, rfl⟩ := h
  exact ⟨hs.trans hss, rfl⟩

theorem Gives.done {h : Shorter rest ts} : (Reply.done a rest notes h).Gives a rest notes :=
  ⟨h, rfl⟩

end Reply

def TokenKind.begins : TokenKind → Bool
  | .identifier | .leftParen | .leftBracket | .keyword .this | .keyword .new => true
  | k => Parser.isLiteral k || k.isPrefix

def TokenKind.trails : TokenKind → Bool
  | .access _ | .leftBracket | .leftParen => true
  | _ => false

namespace TokenKind

variable {k : TokenKind}

theorem begins_of_isLiteral (h : Parser.isLiteral k) : k.begins := by
  unfold begins
  split <;> simp [h]

theorem begins_of_isPrefix (h : k.isPrefix) : k.begins := by
  unfold begins
  split <;> simp [h]

theorem not_isPrefix_of_isLiteral (h : Parser.isLiteral k) : k.isPrefix = false := by
  cases k <;> first | rfl | cases h

end TokenKind

namespace Token

theorem kind_of_bare {t : Token} {kind : TokenKind} (h : t.bare = .of kind) : t.kind = kind :=
  congrArg Token.kind h

theorem bare_eq_synthetic {t : Token} {kind : TokenKind} {text : String} :
    t.bare = .synthetic kind text ↔ t.kind = kind ∧ t.text = text := by
  simp [bare, synthetic]

theorem kind_eq_of_bare {t s : Token} (h : t.bare = s.bare) : t.kind = s.kind := by
  simpa using congrArg Token.kind h

end Token

namespace Expr

variable {N : String → Prop} {A B : Prop} {e : Expr}

/-- An expression starts with a token that only an expression starts with; it is an operator only
where the expression binds no tighter than one. -/
theorem Formed.leads (h : e.Formed N A B) : ∃ t ts, e.tokens = t :: ts ∧ t.kind.begins ∧
    (13 ≤ e.power → t.kind.isPrefix = false) := by
  induction h with
  | @literal t hl hs =>
    have hu := literalTokens_unsigned (hs.head_ne_minus (Parser.isMark_of_isLiteral hl))
    exact ⟨t.bare, [], hu, TokenKind.begins_of_isLiteral hl, fun _ =>
      TokenKind.not_isPrefix_of_isLiteral hl⟩
  | @signed t cs hk hcs hs =>
    exact ⟨_, _, literalTokens_signed hcs, rfl, by simp [power, hcs]⟩
  | @name t hk _ =>
    refine ⟨t.bare, [], rfl, ?_, fun _ => ?_⟩ <;> rw [Token.bare_kind, hk] <;> rfl
  | @this t hk _ =>
    refine ⟨t.bare, [], rfl, ?_, fun _ => ?_⟩ <;> rw [Token.bare_kind, hk] <;> rfl
  | grouping | array | new | construct => exact ⟨_, _, rfl, rfl, fun _ => rfl⟩
  | @unary op e hk =>
    exact ⟨op.bare, _, rfl, TokenKind.begins_of_isPrefix hk, by simp [power]⟩
  | @binary _ _ _ o hk _ _ _ _ _ ihl =>
    obtain ⟨t, ts, ht, hb, -⟩ := ihl
    refine ⟨t, _, by rw [tokens, ht]; rfl, hb, fun h => ?_⟩
    have := o.precedence_lt
    simp only [power, hk, TokenKind.power] at h
    omega
  | member _ _ hp _ _ _ ihl | scope _ _ hp _ _ _ ihl | dynamic _ _ hp _ _ _ ihl _
  | index hp _ _ ihl _ | call hp _ _ _ _ ihl _ =>
    obtain ⟨t, ts, ht, hb, hn⟩ := ihl
    exact ⟨t, _, by rw [tokens, ht]; rfl, hb, fun _ => hn hp⟩

end Expr

namespace Parser

open Lss.Expr

attribute [local simp] folded bare

variable {N : String → Prop} {A B : Prop} {e : Expr} {fin : Token} {ts rest : List Token}

def NoTrailer (rest : List Token) : Prop := ∀ t ∈ rest.head?, t.kind.trails = false

def NoArguments (rest : List Token) : Prop := ∀ t ∈ rest.head?, t.kind ≠ .leftParen

/-- What reading `e` gives: the same, folded, with other places; and no complaint if `A`. -/
structure Again (A : Prop) (e e' : Expr) (notes : List Diagnostic) : Prop where
  bare : e'.bare = e.folded.bare
  quiet : A → notes = []

def RereadsPrimary (A : Prop) (e : Expr) : Prop :=
  ∀ fin ts rest, ts.map Token.bare = e.tokens → (e.endsBare → NoArguments rest) →
    ∃ e' notes, Again A e e' notes ∧ (primary fin (ts ++ rest)).Gives e' rest notes

def RereadsTrailing (A : Prop) (e : Expr) : Prop :=
  ∀ fin ts rest, ts.map Token.bare = e.tokens → (e.endsBare → NoArguments rest) →
    ∃ e' notes h, Again A e e' notes ∧ trailing fin (ts ++ rest) = trailingTail fin e' notes rest h

def RereadsUnary (A : Prop) (e : Expr) : Prop :=
  ∀ fin ts rest, ts.map Token.bare = e.tokens → NoTrailer rest →
    ∃ e' notes, Again A e e' notes ∧ (unary fin (ts ++ rest)).Gives e' rest notes

def RereadsBinary (A : Prop) (e : Expr) : Prop :=
  ∀ fin floor ts rest, ts.map Token.bare = e.tokens → floor ≤ e.power → NoTrailer rest →
    Below e.hold rest →
    ∃ e' notes h, Again A e e' notes ∧
      binary fin floor (ts ++ rest) = binaryTail fin floor e' notes rest h

structure Rereads (A : Prop) (e : Expr) : Prop where
  binary : RereadsBinary A e
  unary : 12 ≤ e.power → RereadsUnary A e
  trailing : 13 ≤ e.power → RereadsTrailing A e
  primary : 14 ≤ e.power → RereadsPrimary A e

/-! From the tighter places to the looser ones. -/

theorem NoTrailer.noArguments (h : NoTrailer rest) : NoArguments rest := by
  intro t ht hk
  have := h t ht
  rw [hk] at this
  cases this

theorem trailingTail_stops {all : List Token} {notes : List Diagnostic} {h : Shorter rest all}
    (hrest : NoTrailer rest) : (trailingTail fin e notes rest h).Gives e rest notes := by
  cases rest with
  | nil =>
    rw [trailingTail]
    exact .done
  | cons t rest =>
    have ht := hrest t rfl
    rw [trailingTail]
    split <;> first | exact .done | (next hk => rw [hk] at ht; cases ht)

theorem binaryTail_stops {all : List Token} {notes : List Diagnostic} {floor : Nat}
    {h : Shorter rest all} (hrest : Below floor rest) :
    (binaryTail fin floor e notes rest h).Gives e rest notes := by
  cases rest with
  | nil =>
    rw [binaryTail]
    exact .done
  | cons t rest =>
    rw [binaryTail]
    split
    · next o ho =>
      rw [if_pos (hrest t rfl o ho)]
      exact .done
    · exact .done

theorem RereadsPrimary.trailing (h : RereadsPrimary A e) : RereadsTrailing A e := by
  intro fin ts rest hts hrest
  obtain ⟨e', notes, hagain, hs, hp⟩ := h fin ts rest hts hrest
  exact ⟨e', notes, hs, hagain, by rw [Parser.trailing, hp]⟩

theorem unary_of_not_isPrefix {t : Token} (h : t.kind.isPrefix = false) :
    unary fin (t :: rest) = trailing fin (t :: rest) := by
  rw [unary]
  split <;> first | rfl | (next hk => rw [hk] at h; cases h)

theorem RereadsTrailing.unary (h : RereadsTrailing A e) (he : e.Formed N A B)
    (hp : 13 ≤ e.power) : RereadsUnary A e := by
  intro fin ts rest hts hrest
  obtain ⟨e', notes, hs, hagain, htr⟩ := h fin ts rest hts fun _ => hrest.noArguments
  obtain ⟨b, bs, hbs, -, hprefix⟩ := he.leads
  rw [hbs] at hts
  obtain ⟨t, ts, rfl, rfl, -⟩ := List.map_eq_cons_iff.mp hts
  have hk : t.kind.isPrefix = false := hprefix hp
  refine ⟨e', notes, hagain, ?_⟩
  change (Parser.unary fin (t :: (ts ++ rest))).Gives e' rest notes
  rw [unary_of_not_isPrefix hk]
  change (Parser.trailing fin (t :: ts ++ rest)).Gives e' rest notes
  rw [htr]
  exact trailingTail_stops hrest

theorem RereadsUnary.binary (h : RereadsUnary A e) : RereadsBinary A e := by
  intro fin floor ts rest hts _ hrest _
  obtain ⟨e', notes, hagain, hs, hu⟩ := h fin ts rest hts hrest
  exact ⟨e', notes, hs, hagain, by rw [Parser.binary, hu]⟩

theorem RereadsUnary.rereads (h : RereadsUnary A e) (hp : e.power < 13) : Rereads A e :=
  ⟨h.binary, fun _ => h, fun hp' => by omega, fun hp' => by omega⟩

theorem RereadsTrailing.rereads (h : RereadsTrailing A e) (he : e.Formed N A B)
    (hp : e.power = 13) : Rereads A e := by
  have hu := h.unary he (by omega)
  exact ⟨hu.binary, fun _ => hu, fun _ => h, fun hp' => by omega⟩

theorem RereadsPrimary.rereads (h : RereadsPrimary A e) (he : e.Formed N A B)
    (hp : e.power = 14) : Rereads A e := by
  have hu := h.trailing.unary he (by omega)
  exact ⟨hu.binary, fun _ => hu, fun _ => h.trailing, fun _ => h⟩

/-! Whole expressions. -/

def Stops (rest : List Token) : Prop :=
  ∀ t ∈ rest.head?, t.kind.trails = false ∧ t.kind.operator? = none

theorem Stops.of_kind {t : Token} {kind : TokenKind} (ht : t.kind = kind)
    (h : kind.trails = false ∧ kind.operator? = none) : Stops (t :: rest) := by
  rintro _ ⟨⟩
  rw [ht]
  exact h

theorem Stops.noTrailer (h : Stops rest) : NoTrailer rest := fun t ht => (h t ht).1

theorem Stops.below (h : Stops rest) (floor : Nat) : Below floor rest := by
  intro t ht o ho
  have := (h t ht).2
  rw [ho] at this
  cases this

theorem Rereads.expression (h : Rereads A e) (fin : Token) (rest : List Token)
    (hts : ts.map Token.bare = e.tokens) (hrest : Stops rest) :
    ∃ e' notes, Again A e e' notes ∧ (expression fin (ts ++ rest)).Gives e' rest notes := by
  obtain ⟨e', notes, hs, hagain, hb⟩ :=
    h.binary fin 1 ts rest hts e.power_pos hrest.noTrailer (hrest.below _)
  refine ⟨e', notes, hagain, ?_⟩
  rw [Parser.expression, hb]
  exact binaryTail_stops (hrest.below 1)

theorem split_tokens {as bs : List Token} {b : Token}
    (h : ts.map Token.bare = as ++ b :: bs) :
    ∃ (xs : List Token) (t : Token) (ys : List Token), ts = xs ++ t :: ys ∧
      xs.map Token.bare = as ∧ t.bare = b ∧ ys.map Token.bare = bs := by
  obtain ⟨xs, zs, rfl, hxs, hzs⟩ := List.map_eq_append_iff.mp h
  obtain ⟨t, ys, rfl, ht, hys⟩ := List.map_eq_cons_iff.mp hzs
  exact ⟨xs, t, ys, rfl, hxs, ht, hys⟩

theorem expect_gives {kind : TokenKind} {context : String} {t : Token} (h : t.kind = kind) :
    (expect kind context fin (t :: rest)).Gives t rest [] := by
  rw [expect, if_pos h]
  exact .done

theorem identifier_gives {context : String} {t : Token} (h : t.kind = .identifier) :
    (identifier context fin (t :: rest)).Gives t rest [] := by
  rw [identifier, if_pos h]
  exact .done

def isClosing (kind : TokenKind) : Prop := kind = .rightParen ∨ kind = .rightBracket

theorem isClosing.stops {close : TokenKind} (h : isClosing close) :
    close.trails = false ∧ close.operator? = none ∧ close ≠ .comma ∧ close.begins = false := by
  rcases h with rfl | rfl <;> decide

theorem Rereads.closed {close : TokenKind} (h : Rereads A e) (hc : isClosing close) (fin : Token)
    (context : String) (rest : List Token)
    (hts : ts.map Token.bare = e.tokens ++ [Token.of close]) :
    ∃ e' mark notes, Again A e e' notes ∧
      (closed fin close context (ts ++ rest)).Gives (e', mark) rest notes := by
  obtain ⟨xs, t, ys, rfl, hxs, ht, hys⟩ := split_tokens hts
  obtain rfl := List.map_eq_nil_iff.mp hys
  have hk := Token.kind_of_bare ht
  obtain ⟨e', notes, hagain, he⟩ :=
    h.expression fin (t :: rest) hxs (.of_kind hk ⟨hc.stops.1, hc.stops.2.1⟩)
  refine ⟨e', t, notes ++ ([] ++ []), ⟨hagain.bare, by simpa using hagain.quiet⟩, ?_⟩
  rw [Parser.closed, List.append_assoc]
  exact he.start fun _ => (expect_gives hk).next fun _ => .done

structure AgainAll (A : Prop) (es es' : List Expr) (notes : List Diagnostic) : Prop where
  bare : es'.map Expr.bare = es.map fun e => e.folded.bare
  quiet : A → notes = []

theorem finishArguments_gives {all : List Token} {close : TokenKind} {context : String}
    {acc : List Expr} {notes : List Diagnostic} {t : Token} {h : Shorter (t :: rest) all}
    (ht : t.kind = close) (hfew : close = .rightParen → A → acc.length ≤ ParseFault.maxArguments)
    (hq : A → notes = []) : ∃ notes', (A → notes' = []) ∧
      (finishArguments fin close context acc notes (t :: rest) h).Gives (acc.reverse, t) rest
        notes' := by
  unfold finishArguments
  simp only [expect, if_pos ht, Reply.next, Reply.after]
  refine ⟨_, fun hA => ?_, .done⟩
  have : ¬(close = .rightParen ∧ ParseFault.maxArguments < acc.length) := by
    rintro ⟨hc, hlt⟩
    have := hfew hc hA
    omega
  simp [hq hA, this]

theorem stops_of_more {close : TokenKind} (hc : isClosing close) {es : List Expr}
    (hts : ts.map Token.bare = moreTokens es ++ [Token.of close]) : Stops (ts ++ rest) := by
  cases es with
  | nil =>
    obtain ⟨t, ys, rfl, ht, -⟩ := List.map_eq_cons_iff.mp hts
    exact .of_kind (Token.kind_of_bare ht) ⟨hc.stops.1, hc.stops.2.1⟩
  | cons e es =>
    obtain ⟨t, ys, rfl, ht, -⟩ := List.map_eq_cons_iff.mp hts
    exact .of_kind (Token.kind_of_bare ht) ⟨rfl, rfl⟩

theorem argumentsTail_gives {close : TokenKind} (hc : isClosing close) (fin : Token)
    (context : String) (acc : List Expr) {es : List Expr} (hes : ∀ e ∈ es, Rereads A e)
    {notes : List Diagnostic}
    (hfew : close = .rightParen → A → acc.length + es.length ≤ ParseFault.maxArguments)
    (hq : A → notes = []) (hts : ts.map Token.bare = moreTokens es ++ [Token.of close])
    {all : List Token} (h : Shorter (ts ++ rest) all) :
    ∃ es' mark notes', AgainAll A es es' notes' ∧
      (argumentsTail fin close context acc notes (ts ++ rest) h).Gives (acc.reverse ++ es', mark)
        rest notes' := by
  induction es generalizing acc notes ts with
  | nil =>
    obtain ⟨t, ys, rfl, ht, hys⟩ := List.map_eq_cons_iff.mp hts
    obtain rfl := List.map_eq_nil_iff.mp hys
    have hk := Token.kind_of_bare ht
    obtain ⟨notes', hq', hg⟩ : ∃ notes', (A → notes' = []) ∧
        (finishArguments fin close context acc notes (t :: rest) h).Gives (acc.reverse, t) rest
          notes' := finishArguments_gives hk hfew hq
    refine ⟨[], t, notes', ⟨rfl, hq'⟩, ?_⟩
    change (argumentsTail fin close context acc notes (t :: rest) h).Gives _ _ _
    rw [argumentsTail, if_neg (by rw [hk]; exact hc.stops.2.2.1), List.append_nil]
    exact hg
  | cons e es ih =>
    rw [moreTokens, List.cons_append, List.append_assoc] at hts
    obtain ⟨t, zs, rfl, ht, hzs⟩ := List.map_eq_cons_iff.mp hts
    obtain ⟨xs, ys, rfl, hxs, hys⟩ := List.map_eq_append_iff.mp hzs
    have hstop : Stops (ys ++ rest) := stops_of_more hc hys
    obtain ⟨e', more, hagain, hs, he⟩ :=
      (hes e List.mem_cons_self).expression fin (ys ++ rest) hxs hstop
    have hs' : Shorter (ys ++ rest) all := by
      simp only [Shorter, List.cons_append, List.length_cons, List.length_append] at h ⊢
      omega
    have hfew' : close = .rightParen → A →
        (e' :: acc).length + es.length ≤ ParseFault.maxArguments := by
      intro hc hA
      have := hfew hc hA
      simp only [List.length_cons] at this ⊢
      omega
    have hq' : A → notes ++ more = [] := fun hA => by rw [hq hA, hagain.quiet hA]; rfl
    obtain ⟨es', mark, notes', hall, hg⟩ :=
      ih (e' :: acc) (fun e he => hes e (List.mem_cons_of_mem _ he)) hfew' hq' hys hs'
    refine ⟨e' :: es', mark, notes', ⟨by simp [hagain.bare, hall.bare], hall.quiet⟩, ?_⟩
    rw [List.reverse_cons, List.append_assoc] at hg
    simp only [List.cons_append, List.append_assoc] at h ⊢
    rw [argumentsTail, if_pos (Token.kind_of_bare ht), he]
    exact hg

theorem arguments_gives {close : TokenKind} (hc : isClosing close) (fin : Token)
    (context : String) (rest : List Token) {es : List Expr} (hes : ∀ e ∈ es, Rereads A e)
    (hf : ∀ e ∈ es, e.Formed N A B)
    (hfew : close = .rightParen → A → es.length ≤ ParseFault.maxArguments)
    (hts : ts.map Token.bare = listTokens es ++ [Token.of close]) :
    ∃ es' mark notes, AgainAll A es es' notes ∧
      (arguments fin close context (ts ++ rest)).Gives (es', mark) rest notes := by
  cases es with
  | nil =>
    obtain ⟨t, ys, rfl, ht, hys⟩ := List.map_eq_cons_iff.mp hts
    obtain rfl := List.map_eq_nil_iff.mp hys
    have hk := Token.kind_of_bare ht
    refine ⟨[], t, [] ++ [], ⟨rfl, fun _ => rfl⟩, ?_⟩
    change (arguments fin close context (t :: rest)).Gives _ _ _
    rw [arguments, if_pos (show peek fin (t :: rest) = close from hk)]
    exact (expect_gives hk).start fun _ => .done
  | cons e es =>
    rw [listTokens, List.append_assoc] at hts
    obtain ⟨xs, ys, rfl, hxs, hys⟩ := List.map_eq_append_iff.mp hts
    obtain ⟨e', notes, hagain, hs, he⟩ :=
      (hes e List.mem_cons_self).expression fin (ys ++ rest) hxs (stops_of_more hc hys)
    obtain ⟨es', mark, notes', hall, hg⟩ :=
      argumentsTail_gives hc fin context [e'] (fun e he => hes e (List.mem_cons_of_mem _ he))
        (by simpa [Nat.add_comm] using hfew) hagain.quiet hys hs
    refine ⟨e' :: es', mark, notes', ⟨by simp [hagain.bare, hall.bare], hall.quiet⟩, ?_⟩
    have hpeek : ¬peek fin (xs ++ (ys ++ rest)) = close := by
      obtain ⟨b, bs, hbs, hbegins, -⟩ := (hf e List.mem_cons_self).leads
      rw [hbs] at hxs
      obtain ⟨t, ts, rfl, rfl, -⟩ := List.map_eq_cons_iff.mp hxs
      rintro rfl
      exact absurd (hbegins.symm.trans hc.stops.2.2.2) (by decide)
    rw [List.append_assoc, arguments, if_neg hpeek, he]
    exact hg

/-! One lemma for each form of expression. -/

theorem shorter_append (xs : List Token) {ys : List Token} (h : ys ≠ []) :
    Shorter rest (xs ++ (ys ++ rest)) := by
  have := List.length_pos_iff.mpr h
  simp only [Shorter, List.length_append]
  omega

theorem singleton_of_map {t : Token} (h : ts.map Token.bare = [t.bare]) :
    ∃ t', ts = [t'] ∧ t'.bare = t.bare := by
  obtain ⟨t', ys, rfl, ht, hys⟩ := List.map_eq_cons_iff.mp h
  obtain rfl := List.map_eq_nil_iff.mp hys
  exact ⟨t', rfl, ht⟩

theorem primary_literal {t : Token} (h : isLiteral t.kind) :
    (primary fin (t :: rest)).Gives (.literal t) rest [] := by
  rw [primary]
  split <;> first | (rw [if_pos h]; exact .done) | (next hk => rw [hk] at h; cases h)

theorem rereads_literal {t : Token} (hl : isLiteral t.kind) (ht : t.text.toList.head? ≠ some '-') :
    RereadsPrimary A (.literal t) := by
  intro fin ts rest hts _
  rw [tokens, literalTokens_unsigned ht] at hts
  obtain ⟨t', rfl, ht'⟩ := singleton_of_map hts
  refine ⟨.literal t', [], ⟨by simp [ht'], fun _ => rfl⟩, ?_⟩
  exact primary_literal (by rw [Token.kind_eq_of_bare ht']; exact hl)

theorem rereads_variable {t : Token} (hk : t.kind = .identifier ∨ t.kind = .keyword .this) :
    RereadsPrimary A (.variable t) := by
  intro fin ts rest hts _
  obtain ⟨t', rfl, ht'⟩ := singleton_of_map hts
  refine ⟨.variable t', [], ⟨by simp [ht'], fun _ => rfl⟩, ?_⟩
  rw [← Token.kind_eq_of_bare ht'] at hk
  change (primary fin (t' :: rest)).Gives _ _ _
  rw [primary]
  rcases hk with hk | hk <;> simp only [hk] <;> exact .done

theorem rereads_grouping (h : Rereads A e) : RereadsPrimary A (.grouping e) := by
  intro fin ts rest hts _
  obtain ⟨t, ys, rfl, ht, hys⟩ := List.map_eq_cons_iff.mp hts
  obtain ⟨e', mark, notes, hagain, hg⟩ :=
    h.closed (.inl rfl) fin "after expression" rest hys
  refine ⟨.grouping e', notes ++ [], ⟨by simp [hagain.bare], ?_⟩, ?_⟩
  · simpa using hagain.quiet
  · change (primary fin (t :: (ys ++ rest))).Gives _ _ _
    rw [primary]
    simp only [Token.kind_of_bare ht]
    exact hg.next fun _ => .done

theorem rereads_array {es : List Expr} {s : Span} (hes : ∀ e ∈ es, Rereads A e)
    (hf : ∀ e ∈ es, e.Formed N A B) : RereadsPrimary A (.array es s) := by
  intro fin ts rest hts _
  obtain ⟨t, ys, rfl, ht, hys⟩ := List.map_eq_cons_iff.mp hts
  obtain ⟨es', mark, notes, hall, hg⟩ :=
    arguments_gives (.inr rfl) fin "after array elements" rest hes hf (by simp) hys
  refine ⟨.array es' (t.span + mark.span), notes ++ [], ⟨by simp [hall.bare], ?_⟩, ?_⟩
  · simpa using hall.quiet
  · change (primary fin (t :: (ys ++ rest))).Gives _ _ _
    rw [primary]
    simp only [Token.kind_of_bare ht]
    exact hg.next fun _ => .done

theorem rereads_new {t : Token} {s : Span} (ht : t.kind = .identifier) :
    RereadsPrimary A (.construct t none s) := by
  intro fin ts rest hts hrest
  obtain ⟨k, ys, rfl, hk, hys⟩ := List.map_eq_cons_iff.mp hts
  obtain ⟨t', rfl, ht'⟩ := singleton_of_map hys
  refine ⟨.construct t' none (k.span + t'.span), [] ++ [],
    ⟨by simp [ht'], fun _ => rfl⟩, ?_⟩
  change (primary fin (k :: t' :: rest)).Gives _ _ _
  rw [primary]
  simp only [Token.kind_of_bare hk]
  refine .last ?_
  rw [construction]
  refine (identifier_gives (by rw [Token.kind_eq_of_bare ht', ht])).start fun _ => ?_
  cases rest with
  | nil => exact .done
  | cons r rest =>
    simp only [if_neg (hrest rfl r rfl)]
    exact .done

theorem rereads_construct {t : Token} {es : List Expr} {s : Span} (ht : t.kind = .identifier)
    (hes : ∀ e ∈ es, Rereads A e) (hf : ∀ e ∈ es, e.Formed N A B)
    (hfew : A → es.length ≤ ParseFault.maxArguments) :
    RereadsPrimary A (.construct t (some es) s) := by
  intro fin ts rest hts _
  obtain ⟨k, ys, rfl, hk, hys⟩ := List.map_eq_cons_iff.mp hts
  obtain ⟨t', ys, rfl, ht', hys⟩ := List.map_eq_cons_iff.mp hys
  obtain ⟨p, ys, rfl, hp, hys⟩ := List.map_eq_cons_iff.mp hys
  obtain ⟨es', mark, notes, hall, hg⟩ :=
    arguments_gives (.inl rfl) fin "after constructor arguments" rest hes hf (fun _ => hfew) hys
  refine ⟨.construct t' (some es') (k.span + t'.span + mark.span), [] ++ (notes ++ []),
    ⟨by simp [ht', hall.bare], by simpa using hall.quiet⟩, ?_⟩
  change (primary fin (k :: t' :: p :: (ys ++ rest))).Gives _ _ _
  rw [primary]
  simp only [Token.kind_of_bare hk]
  refine .last ?_
  rw [construction]
  refine (identifier_gives (by rw [Token.kind_eq_of_bare ht', ht])).start fun _ => ?_
  simp only [if_pos (Token.kind_of_bare hp)]
  exact hg.next fun _ => .done

/-! Signs and prefix operators. -/

theorem bare_prefixed (op : Token) (e : Expr) :
    (e.prefixed op).bare = e.bare.prefixed op.bare := by
  unfold prefixed
  rw [Token.bare_kind]
  split
  · cases e with
    | literal t =>
      by_cases ht : t.kind = .integer ∨ t.kind = .float
      · simp [negated?, ht, Token.bare, Token.synthetic]
      · simp [negated?, ht]
    | construct t es s => cases es <;> rfl
    | _ => rfl
  · rfl

theorem bare_applyUnary (op : Token) (e : Expr) :
    (applyUnary op e).bare = (e.prefixed op).bare := by
  unfold applyUnary prefixed
  split
  · next t =>
    simp only [negated?]
    by_cases hop : op.kind = .binary .sub
    · by_cases ht : t.kind = .integer ∨ t.kind = .float
      · rw [if_pos ⟨hop, ht⟩, if_pos hop, if_pos ht]
        rfl
      · rw [if_neg (fun h => ht h.2), if_pos hop, if_neg ht]
        rfl
    · rw [if_neg (fun h => hop h.1), if_neg hop]
      rfl
  · next hl =>
    have : e.negated? = none := by
      unfold negated?
      split
      · next t => exact absurd rfl (hl t)
      · rfl
    rw [this]
    split <;> rfl

theorem rereads_unary {op : Token} (hop : op.kind.isPrefix) (h : RereadsUnary A e) :
    RereadsUnary A (.unary op e true) := by
  intro fin ts rest hts hrest
  obtain ⟨t, ys, rfl, ht, hys⟩ := List.map_eq_cons_iff.mp hts
  obtain ⟨e', notes, hagain, hg⟩ := h fin ys rest hys hrest
  refine ⟨applyUnary t e', notes ++ [], ⟨?_, by simpa using hagain.quiet⟩, ?_⟩
  · rw [bare_applyUnary, bare_prefixed, hagain.bare, ht, folded, bare_prefixed]
  · have hk := Token.kind_eq_of_bare ht
    change (unary fin (t :: (ys ++ rest))).Gives _ _ _
    rw [unary]
    split
    · exact hg.next fun _ => .done
    · exact hg.next fun _ => .done
    · exact hg.next fun _ => .done
    · next h1 h2 h3 =>
      rw [← hk] at hop
      unfold TokenKind.isPrefix at hop
      split at hop <;> contradiction

theorem rereads_signed {t : Token} {cs : List Char} (hk : t.kind = .integer ∨ t.kind = .float)
    (hcs : t.text.toList = '-' :: cs) (hs : Spells t.kind cs) : RereadsUnary A (.literal t) := by
  intro fin ts rest hts hrest
  rw [tokens, literalTokens_signed hcs] at hts
  obtain ⟨m, ys, rfl, hm, hys⟩ := List.map_eq_cons_iff.mp hts
  obtain ⟨d, ys, rfl, hd, hys⟩ := List.map_eq_cons_iff.mp hys
  obtain rfl := List.map_eq_nil_iff.mp hys
  obtain ⟨hdk, hdt⟩ := Token.bare_eq_synthetic.mp hd
  have hunsigned := hs.head_ne_minus (isMark_of_isLiteral (isLiteral_of_number hk))
  have hdt' : d.text.toList.head? ≠ some '-' := by rwa [hdt, String.toList_ofList]
  have hdigits : RereadsUnary A (.literal d) := by
    have hl : isLiteral d.kind := by rw [hdk]; exact isLiteral_of_number hk
    have hf : (Expr.literal d).Formed IsName A True := .literal hl (by
      rw [Token.Spelled, hdk, hdt, String.toList_ofList]
      exact hs)
    exact (rereads_literal hl hdt').trailing.unary hf (by simp [power, hdt'])
  obtain ⟨e', notes, hagain, hg⟩ :=
    hdigits fin [d] rest (by simp [tokens, literalTokens_unsigned hdt']) hrest
  refine ⟨applyUnary m e', notes ++ [], ⟨?_, by simpa using hagain.quiet⟩, ?_⟩
  · have hn : negateText (String.ofList cs) = t.text := by
      rw [negateText_unsigned (by rwa [String.toList_ofList]), String.toList_ofList, ← hcs,
        String.ofList_toList]
    rw [bare_applyUnary, bare_prefixed, hagain.bare, hm]
    simp only [folded, bare, hd, prefixed, negated?, Token.synthetic, if_pos hk]
    simp [Token.of, Token.synthetic, Token.bare, hn]
  · change (unary fin (m :: d :: rest)).Gives _ _ _
    rw [unary]
    simp only [Token.kind_of_bare hm]
    exact hg.next fun _ => .done

/-! Trailers. -/

/-- A trailer that starts with `b` is read after what stands before it. -/
theorem RereadsTrailing.trailer {l : Expr} {b : Token} {bs : List Token}
    (hl : RereadsTrailing A l) (he : e.tokens = l.tokens ++ b :: bs)
    (hb : l.endsBare → b.kind ≠ .leftParen)
    (step : ∀ fin t ys rest l', t.bare = b → ys.map Token.bare = bs →
      (e.endsBare → NoArguments rest) → l'.bare = l.folded.bare →
      ∃ e' more, Again A e e' more ∧ ∀ all notes (h : Shorter (t :: (ys ++ rest)) all),
        ∃ h', trailingTail fin l' notes (t :: (ys ++ rest)) h
          = trailingTail fin e' (notes ++ more) rest h') : RereadsTrailing A e := by
  intro fin ts rest hts hrest
  rw [he] at hts
  obtain ⟨xs, t, ys, rfl, hxs, rfl, hys⟩ := split_tokens hts
  have hargs : l.endsBare → NoArguments (t :: (ys ++ rest)) := by
    rintro hbare _ ⟨⟩
    exact hb hbare
  obtain ⟨l', notes, hs, hl', htr⟩ := hl fin xs (t :: (ys ++ rest)) hxs hargs
  obtain ⟨e', more, hagain, hstep⟩ := step fin t ys rest l' rfl hys hrest hl'.bare
  obtain ⟨hs', htail⟩ := hstep _ notes hs
  rw [List.append_assoc]
  refine ⟨e', notes ++ more, hs', ⟨hagain.bare, fun hA => ?_⟩, htr.trans htail⟩
  rw [hl'.quiet hA, hagain.quiet hA]
  rfl

theorem rereads_name {l : Expr} {op t : Token} (hl : RereadsTrailing A l)
    (hop : (op.kind = .access .member ∧ (t.kind = .identifier ∨ t.kind.isProperty)) ∨
      (op.kind = .access .scope ∧ t.kind = .identifier)) :
    RereadsTrailing A (.binary l op (.variable t)) := by
  have hparen : op.bare.kind ≠ .leftParen := by
    rcases hop with h | h <;> rw [Token.bare_kind, h.1] <;> decide
  refine hl.trailer rfl (fun _ => hparen) fun fin op' ys rest l' hop' hys _ hl' => ?_
  obtain ⟨t', rfl, ht'⟩ := singleton_of_map hys
  rw [← Token.kind_eq_of_bare hop', ← Token.kind_eq_of_bare ht'] at hop
  refine ⟨.binary l' op' (.variable t'), [],
    ⟨by simp [hl', hop', ht'], fun _ => rfl⟩, fun all notes h => ?_⟩
  refine ⟨h.of_cons.of_cons, ?_⟩
  change trailingTail fin l' notes (op' :: t' :: rest) h = _
  rw [trailingTail]
  rcases hop with ⟨hk, ht⟩ | ⟨hk, ht⟩
  · simp only [hk, memberName, Bool.or_eq_true, decide_eq_true_eq, if_pos ht]
  · simp only [hk, identifier, if_pos ht]

theorem rereads_dynamic {l r : Expr} {op : Token} (hl : RereadsTrailing A l)
    (hop : op.kind = .access .dynamicMember ∨ op.kind = .access .dynamicScope)
    (hr : RereadsPrimary A r) : RereadsTrailing A (.binary l op r) := by
  have hparen : op.bare.kind ≠ .leftParen := by
    rcases hop with h | h <;> rw [Token.bare_kind, h] <;> decide
  refine hl.trailer rfl (fun _ => hparen) fun fin op' ys rest l' hop' hys hrest hl' => ?_
  have hbare : r.endsBare → NoArguments rest := fun h => hrest (by
    rcases hop with hk | hk <;> simp [endsBare, hk, h, TokenKind.isAccess])
  obtain ⟨r', more, hr', hs', hp⟩ := hr fin ys rest hys hbare
  rw [← Token.kind_eq_of_bare hop'] at hop
  refine ⟨.binary l' op' r', more, ⟨by simp [hl', hr'.bare, hop'], hr'.quiet⟩,
    fun all notes h => ⟨hs'.behind h, ?_⟩⟩
  rw [trailingTail]
  rcases hop with hk | hk <;> simp only [hk, hp]

theorem rereads_index {a i : Expr} {s : Span} (ha : RereadsTrailing A a) (hi : Rereads A i) :
    RereadsTrailing A (.index a i s) := by
  refine ha.trailer rfl (fun _ => by decide) fun fin p ys rest a' hp hys _ ha' => ?_
  obtain ⟨i', mark, more, hi', hs', hc⟩ := hi.closed (.inr rfl) fin "after index" rest hys
  refine ⟨.index a' i' (a'.span + mark.span), more,
    ⟨by simp [ha', hi'.bare], hi'.quiet⟩, fun all notes h => ⟨hs'.behind h, ?_⟩⟩
  rw [trailingTail]
  simp only [Token.kind_of_bare hp, hc]

theorem rereads_call {f : Expr} {es : List Expr} {s : Span} (hf : RereadsTrailing A f)
    (hb : f.endsBare = false) (hes : ∀ e ∈ es, Rereads A e) (hfes : ∀ e ∈ es, e.Formed N A B)
    (hfew : A → es.length ≤ ParseFault.maxArguments) : RereadsTrailing A (.call f es s) := by
  refine hf.trailer rfl (fun h => by rw [hb] at h; cases h) fun fin p ys rest f' hp hys _ hf' => ?_
  obtain ⟨es', mark, more, hall, hs', hc⟩ :=
    arguments_gives (.inl rfl) fin "after arguments" rest hes hfes (fun _ => hfew) hys
  refine ⟨.call f' es' (f'.span + mark.span), more,
    ⟨by simp [hf', hall.bare], hall.quiet⟩, fun all notes h => ⟨hs'.behind h, ?_⟩⟩
  rw [trailingTail]
  simp only [Token.kind_of_bare hp, hc]

/-! Binary operators. -/

theorem rereads_binary {l r : Expr} {op : Token} {o : BinaryOp} (hop : op.kind = .binary o)
    (hl : RereadsBinary A l) (hr : RereadsBinary A r) (hlo : o.precedence < l.hold)
    (hro : rightFloor o ≤ r.power) : RereadsBinary A (.binary l op r) := by
  intro fin floor ts rest hts hfloor hrest hbelow
  obtain ⟨xs, op', ys, rfl, hxs, hop', hys⟩ := split_tokens hts
  have hk := (Token.kind_eq_of_bare hop').trans hop
  simp only [power, hop, TokenKind.power] at hfloor
  simp only [hold, hop, TokenKind.hold] at hbelow
  -- the operator ends the left operand, and what follows ends the right one
  have hleft : Below l.hold (op' :: (ys ++ rest)) := by
    rintro _ ⟨⟩ o' ho'
    rw [hk] at ho'
    cases ho'
    exact hlo
  have htrailer : NoTrailer (op' :: (ys ++ rest)) := by
    rintro _ ⟨⟩
    rw [hk]
    rfl
  have hright : Below r.hold rest := by
    intro t ht o' ho'
    have h1 := hbelow t ht o' ho'
    have h2 := r.min_power_le_hold
    have h3 := o.rightFloor_lt
    omega
  have hlf : floor ≤ l.power := by
    have := l.hold_le_power
    omega
  obtain ⟨l', notes, hs, hl', hlb⟩ := hl fin floor xs _ hxs hlf htrailer hleft
  obtain ⟨r', more, hs', hr', hrb⟩ := hr fin (rightFloor o) ys rest hys hro hrest hright
  have hstop : (binaryTail fin (rightFloor o) r' more rest hs').Gives r' rest more :=
    binaryTail_stops hbelow
  obtain ⟨hs'', hrt⟩ := hstop
  rw [List.append_assoc]
  refine ⟨.binary l' op' r', notes ++ more, ?_, ⟨?_, ?_⟩, ?_⟩
  · exact shorter_append xs (by simp)
  · simp [hl'.bare, hr'.bare, hop']
  · intro hA
    rw [hl'.quiet hA, hr'.quiet hA]
    rfl
  · change binary fin floor (xs ++ op' :: (ys ++ rest)) = _
    rw [hlb, binaryTail]
    simp only [hk, if_neg (Nat.not_lt.mpr hfloor), hrb, hrt]

/-- The tokens of a formed expression are read as that expression. -/
theorem rereads_of_formed (h : e.Formed N A B) : Rereads A e := by
  induction h with
  | literal hl hs =>
    have hu := hs.head_ne_minus (isMark_of_isLiteral hl)
    exact (rereads_literal hl hu).rereads (.literal (N := N) (B := B) hl hs) (by simp [power, hu])
  | signed hk hcs hs => exact (rereads_signed hk hcs hs).rereads (by simp [power, hcs])
  | name hk hn => exact (rereads_variable (.inl hk)).rereads (.name (B := B) hk hn) rfl
  | this hk hs => exact (rereads_variable (.inr hk)).rereads (.this (N := N) (B := B) hk hs) rfl
  | grouping h ih => exact (rereads_grouping ih).rereads (.grouping h) rfl
  | unary hop hs hp hneg h ih => exact (rereads_unary hop (ih.unary hp)).rereads (by simp [power])
  | @binary l r op o hop hs hlo hro hl hr ihl ihr =>
    have hpower : (Expr.binary l op r).power < 12 := by
      simp only [power, hop, TokenKind.power]
      exact o.precedence_lt
    exact ⟨rereads_binary hop ihl.binary ihr.binary hlo hro, fun h => by omega, fun h => by omega,
      fun h => by omega⟩
  | member hop hs hp ht hts hl ihl =>
    exact (rereads_name (ihl.trailing hp) (.inl ⟨hop, ht⟩)).rereads (.member hop hs hp ht hts hl)
      (by simp [power, hop, TokenKind.power])
  | scope hop hs hp ht hts hl ihl =>
    exact (rereads_name (ihl.trailing hp) (.inr ⟨hop, ht⟩)).rereads (.scope hop hs hp ht hts hl)
      (by simp [power, hop, TokenKind.power])
  | dynamic hop hs hp hpr hl hr ihl ihr =>
    refine (rereads_dynamic (ihl.trailing hp) hop (ihr.primary hpr)).rereads
      (.dynamic hop hs hp hpr hl hr) ?_
    rcases hop with h | h <;> simp [power, h, TokenKind.power]
  | index hp ha hi iha ihi =>
    exact (rereads_index (iha.trailing hp) ihi).rereads (.index hp ha hi) rfl
  | array hes ih => exact (rereads_array ih hes).rereads (.array hes) rfl
  | call hp hb hfew hf hes ihf ihes =>
    exact (rereads_call (ihf.trailing hp) hb ihes hes hfew).rereads (.call hp hb hfew hf hes) rfl
  | new hk hs => exact (rereads_new hk).rereads (.new (N := N) (B := B) hk hs) rfl
  | construct hk hs hfew hes ih =>
    exact (rereads_construct hk ih hes hfew).rereads (.construct hk hs hfew hes) rfl

end Parser

end Lss
