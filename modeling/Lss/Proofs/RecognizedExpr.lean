import Lss.Proofs.DerivedUnit

/-!
# What is derived is read: expressions

Where the choices of a derivation are made, the parser finds the same tree and has no complaint, as
long as the tokens behind it cannot go on with what was derived.
-/
namespace Lss

/-! Which token a derivation starts with. -/

namespace Grammar

variable {G : Prop} {e : Expr} {ts rest : List Token}

theorem Primary.begins (h : Primary G ts e rest) :
    ∃ t ss, ts = t :: ss ∧ t.kind.begins ∧ t.kind.isPrefix = false := by
  cases h with
  | literal hk =>
    exact ⟨_, _, rfl, TokenKind.begins_of_isLiteral hk, TokenKind.not_isPrefix_of_isLiteral hk⟩
  | name hk => rcases hk with hk | hk <;> exact ⟨_, _, rfl, by rw [hk]; rfl, by rw [hk]; rfl⟩
  | grouping hk | array hk | new hk | construct hk =>
    exact ⟨_, _, rfl, by rw [hk]; rfl, by rw [hk]; rfl⟩

theorem Trailing.begins {e : Expr} {rest : List Token} : Trailing G ts e rest →
    ∃ t ss, ts = t :: ss ∧ t.kind.begins ∧ t.kind.isPrefix = false
  | .primary h => h.begins
  | .member _ _ h | .scope _ _ h | .dynamic _ h _ | .index _ _ h _ | .call _ _ _ _ h _ => h.begins

theorem Unary.begins (h : Unary G ts e rest) : ∃ t ss, ts = t :: ss ∧ t.kind.begins := by
  cases h with
  | trailing h =>
    obtain ⟨t, ss, hts, hb, -⟩ := h.begins
    exact ⟨t, ss, hts, hb⟩
  | number hk => exact ⟨_, _, rfl, by rw [hk]; rfl⟩
  | operator hk => exact ⟨_, _, rfl, TokenKind.begins_of_isPrefix hk⟩

theorem Expression.begins {e : Expr} {rest : List Token} : Expression G ts e rest →
    ∃ t ss, ts = t :: ss ∧ t.kind.begins
  | .unary h => h.begins
  | .binary _ _ h _ => h.begins

/-- A list goes on with a comma or is closed. -/
theorem More.stops {es : List Expr} {mark : Token} (h : More G ts es (mark :: rest))
    (hmark : Parser.isClosing mark.kind) : Parser.Stops ts := by
  cases h with
  | none => exact .of_kind rfl ⟨hmark.stops.1, hmark.stops.2.1⟩
  | some hcomma => exact .of_kind hcomma ⟨rfl, rfl⟩

end Grammar

namespace Parser

open Grammar

variable {fin : Token} {ts rest : List Token}

theorem NoTrailer.of_kind {t : Token} {kind : TokenKind} (ht : t.kind = kind)
    (h : kind.trails = false) : NoTrailer (t :: rest) := by
  rintro _ ⟨⟩
  rwa [ht]

theorem NoArguments.of_kind {t : Token} {kind : TokenKind} (ht : t.kind = kind)
    (h : kind ≠ .leftParen) : NoArguments (t :: rest) := by
  rintro _ ⟨⟩
  rwa [ht]

theorem negateText_eq {a b : String} (h : Opposite a b) : negateText a = b := by
  rcases h with h | ⟨h, hb⟩
  · rw [negateText_signed h, String.ofList_toList]
  · rw [negateText_unsigned h, ← hb, String.ofList_toList]

theorem applyUnary_number {op t : Token} {text : String} (hk : op.kind = .binary .sub)
    (ht : IsNumber t) (h : Opposite t.text text) :
    applyUnary op (.literal t) = .literal ⟨t.kind, text, op.span + t.span⟩ := by
  rw [applyUnary, if_pos ⟨hk, ht⟩, negateText_eq h]

theorem applyUnary_operator {op : Token} {e : Expr}
    (h : op.kind = .binary .sub → ∀ t ∈ e.literal?, ¬IsNumber t) :
    applyUnary op e = .unary op e true := by
  unfold applyUnary
  split
  · next t =>
    rw [if_neg]
    rintro ⟨hk, ht⟩
    exact h hk t rfl ht
  · rfl

theorem unary_of_isPrefix {op : Token} {e : Expr} (hk : op.kind.isPrefix)
    (h : (unary fin ts).Gives e rest []) :
    (unary fin (op :: ts)).Gives (applyUnary op e) rest [] := by
  rw [unary]
  rcases TokenKind.isPrefix_iff.mp hk with hk | hk | hk <;> simp only [hk] <;>
    exact h.next fun _ => .done

theorem finishArguments_quiet {all : List Token} {close : TokenKind} {context : String}
    {acc : List Expr} {t : Token} {h : Shorter (t :: rest) all} (ht : t.kind = close)
    (hfew : close = .rightParen → acc.length ≤ ParseFault.maxArguments) :
    (finishArguments fin close context acc [] (t :: rest) h).Gives (acc.reverse, t) rest [] := by
  obtain ⟨notes, hquiet, hg⟩ : ∃ notes, (True → notes = []) ∧
      (finishArguments fin close context acc [] (t :: rest) h).Gives (acc.reverse, t) rest notes :=
    finishArguments_gives ht (fun hc _ => hfew hc) fun _ => rfl
  rwa [hquiet trivial] at hg

/-! Expressions: one case for each rule. -/

theorem binary_of_unary {e : Expr} {floor : Nat} (h : (unary fin ts).Gives e rest []) :
    ∃ hs, binary fin floor ts = binaryTail fin floor e [] rest hs := by
  obtain ⟨hs, h⟩ := h
  exact ⟨hs, by rw [binary, h]⟩

/-- An operator behind what was read, and its right operand. -/
theorem binaryTail_step {all : List Token} {floor : Nat} {l r : Expr} {op : Token} {o : BinaryOp}
    {ms : List Token} {h : Shorter (op :: ms) all} (hop : op.kind = .binary o)
    (hfloor : floor ≤ o.precedence) (hr : (binary fin (rightFloor o) ms).Gives r rest []) :
    ∃ hs, binaryTail fin floor l [] (op :: ms) h
      = binaryTail fin floor (.binary l op r) [] rest hs := by
  obtain ⟨hs, hr⟩ := hr
  refine ⟨hs.behind h, ?_⟩
  rw [binaryTail]
  simp only [hop]
  rw [if_neg (by omega), hr]
  rfl

theorem peek_ne_of_expression {e : Expr} {kind : TokenKind} (h : Expression True ts e rest)
    (hk : kind.begins = false) : peek fin ts ≠ kind := by
  obtain ⟨t, ss, rfl, hb⟩ := h.begins
  exact ne_of_begins hb hk

def ReadsBinary (fin : Token) (ts : List Token) (e : Expr) (rest : List Token) : Prop :=
  ∀ floor, NoTrailer rest → floor ≤ e.power → Below e.hold rest →
    ∃ hs, binary fin floor ts = binaryTail fin floor e [] rest hs

theorem ReadsBinary.expression {e : Expr} (h : ReadsBinary fin ts e rest) (hrest : Stops rest) :
    (expression fin ts).Gives e rest [] := by
  obtain ⟨hs, hb⟩ := h 1 hrest.noTrailer e.power_pos (hrest.below _)
  rw [Parser.expression, hb]
  exact binaryTail_stops (hrest.below 1)

theorem ReadsBinary.closed {e : Expr} {mark : Token} {close : TokenKind}
    (h : ReadsBinary fin ts e (mark :: rest)) (hmark : mark.kind = close) (hc : isClosing close)
    (context : String) : (closed fin close context ts).Gives (e, mark) rest [] := by
  rw [Parser.closed]
  refine (h.expression (.of_kind hmark ⟨hc.stops.1, hc.stops.2.1⟩)).start fun _ => ?_
  exact (expect_gives hmark).next fun _ => .done

mutual

theorem binary_reads (fin : Token) {ts rest : List Token} {e : Expr} :
    Expression True ts e rest → ReadsBinary fin ts e rest
  | .unary h => by
    intro floor hrest _ _
    exact binary_of_unary (unary_reads fin h hrest)
  | @Expression.binary _ _ ms _ l r op o hop hfits hl hr => by
    intro floor hrest hfloor hbelow
    obtain ⟨hlh, hrp⟩ := fits_iff.mp (hfits trivial)
    simp only [Expr.power, Expr.hold, hop, TokenKind.power, TokenKind.hold] at hfloor hbelow
    have hlp := l.hold_le_power
    -- the left operand up to the operator
    have hop' : Below l.hold (op :: ms) := by
      rintro _ ⟨⟩ o' ho'
      rw [hop] at ho'
      cases ho'
      exact hlh
    obtain ⟨hs, hleft⟩ := binary_reads fin hl floor (.of_kind hop rfl) (by omega) hop'
    -- and the right operand, which ends where the operation does
    have hrb : Below r.hold rest := by
      intro t ht o' ho'
      have := r.min_power_le_hold
      have := o.rightFloor_lt
      have := hbelow t ht o' ho'
      omega
    obtain ⟨hs', hright⟩ := binary_reads fin hr (rightFloor o) hrest hrp hrb
    have hg : (binary fin (rightFloor o) ms).Gives r rest [] := by
      rw [hright]
      exact binaryTail_stops hbelow
    obtain ⟨hs'', hstep⟩ := binaryTail_step (l := l) (h := hs) hop hfloor hg
    exact ⟨hs'', hleft.trans hstep⟩

theorem unary_reads (fin : Token) {ts rest : List Token} {e : Expr} :
    Unary True ts e rest → NoTrailer rest → (unary fin ts).Gives e rest []
  | .trailing h, hrest => by
    obtain ⟨hs, htr⟩ := trailing_reads fin h fun _ => hrest.noArguments
    obtain ⟨t, ss, rfl, -, hk⟩ := h.begins
    rw [unary_of_not_isPrefix hk, htr]
    exact trailingTail_stops hrest
  | .number hk ht htext h, hrest => by
    rw [← applyUnary_number hk ht htext]
    exact unary_of_isPrefix (by rw [hk]; rfl) (unary_reads fin h hrest)
  | .operator hk hn h, hrest => by
    rw [← applyUnary_operator hn]
    exact unary_of_isPrefix hk (unary_reads fin h hrest)

theorem trailing_reads (fin : Token) {ts rest : List Token} {e : Expr} :
    Trailing True ts e rest → (e.endsBare → NoArguments rest) →
      ∃ hs, trailing fin ts = trailingTail fin e [] rest hs
  | .primary h, hrest => by
    obtain ⟨hs, hp⟩ := primary_reads fin h hrest
    exact ⟨hs, by rw [trailing, hp]⟩
  | @Trailing.member _ _ rest _ _ name hop hname h, _ => by
    obtain ⟨hs, htr⟩ := trailing_reads fin h fun _ => .of_kind hop (by decide)
    have hm : (memberName fin (name :: rest)).Gives name rest [] := by
      rw [memberName, if_pos (by simpa using hname)]
      exact .done
    obtain ⟨hs', hm⟩ := hm
    refine ⟨hs'.behind hs, ?_⟩
    rw [htr, trailingTail]
    simp only [hop]
    rw [hm]
    rfl
  | @Trailing.scope _ _ rest _ _ name hop hname h, _ => by
    obtain ⟨hs, htr⟩ := trailing_reads fin h fun _ => .of_kind hop (by decide)
    obtain ⟨hs', hm⟩ : (identifier "after '::'" fin (name :: rest)).Gives name rest [] :=
      identifier_gives hname
    refine ⟨hs'.behind hs, ?_⟩
    rw [htr, trailingTail]
    simp only [hop]
    rw [hm]
    rfl
  | @Trailing.dynamic _ _ _ rest _ name op hop h hname, hrest => by
    have hacc : op.kind.isAccess := by
      rcases hop with hop | hop <;> rw [hop] <;> rfl
    have hne : op.kind ≠ .leftParen := by
      rcases hop with hop | hop <;> rw [hop] <;> decide
    obtain ⟨hs, htr⟩ := trailing_reads fin h fun _ => .of_kind rfl hne
    have hbare : name.endsBare → NoArguments rest := by
      intro hb
      exact hrest (by simp [Expr.endsBare, hacc, hb])
    obtain ⟨hs', hp⟩ := primary_reads fin hname hbare
    refine ⟨hs'.behind hs, ?_⟩
    rw [htr, trailingTail]
    rcases hop with hop | hop <;> simp only [hop, hp, List.append_nil]
  | .index hleft hright h hi, _ => by
    obtain ⟨hs, htr⟩ := trailing_reads fin h fun _ => .of_kind hleft (by decide)
    obtain ⟨hs', hc⟩ := (binary_reads fin hi).closed hright (.inr rfl) "after index"
    refine ⟨hs'.behind hs, ?_⟩
    rw [htr, trailingTail]
    simp only [hleft]
    rw [hc]
    rfl
  | .call hleft hright hfew hbare h hes, _ => by
    obtain ⟨hs, htr⟩ := trailing_reads fin h fun hb => by
      rw [hbare trivial] at hb
      cases hb
    obtain ⟨hs', hc⟩ :=
      arguments_reads fin hes rfl hright (.inl rfl) (fun _ => hfew) "after arguments"
    refine ⟨hs'.behind hs, ?_⟩
    rw [htr, trailingTail]
    simp only [hleft]
    rw [hc]
    rfl

theorem primary_reads (fin : Token) {ts rest : List Token} {e : Expr} :
    Primary True ts e rest → (e.endsBare → NoArguments rest) → (primary fin ts).Gives e rest []
  | .literal (t := t) hk, _ => by
    rw [primary]
    split
    · next h => rw [h] at hk; cases hk
    · next h => rw [h] at hk; cases hk
    · next h => rw [h] at hk; cases hk
    · next h => rw [h] at hk; cases hk
    · next h => rw [h] at hk; cases hk
    · rw [if_pos hk]
      exact .done
  | .name hk, _ => by
    rw [primary]
    rcases hk with hk | hk <;> simp only [hk] <;> exact .done
  | .grouping hleft hright h, _ => by
    rw [primary]
    simp only [hleft]
    have hg := (binary_reads fin h).closed hright (.inl rfl) "after expression"
    exact hg.next fun _ => .done
  | .array hleft hright h, _ => by
    rw [primary]
    simp only [hleft]
    have hg := arguments_reads fin h rfl hright (.inr rfl) (by simp) "after array elements"
    exact hg.next fun _ => .done
  | .new hword htype, hrest => by
    rw [primary]
    simp only [hword]
    apply Reply.Gives.last
    rw [construction]
    refine (identifier_gives htype).start fun _ => ?_
    split
    · exact .done
    · rw [if_neg (hrest rfl _ rfl)]
      exact .done
  | .construct hword htype hleft hright hfew h, _ => by
    rw [primary]
    simp only [hword]
    apply Reply.Gives.last
    rw [construction]
    refine (identifier_gives htype).start fun _ => ?_
    simp only [if_pos hleft]
    have hg :=
      arguments_reads fin h rfl hright (.inl rfl) (fun _ => hfew) "after constructor arguments"
    exact hg.next fun _ => .done

theorem arguments_reads (fin : Token) {ts tail : List Token} {es : List Expr} :
    Arguments True ts es tail → ∀ {mark : Token} {rest : List Token} {close : TokenKind},
      tail = mark :: rest → mark.kind = close → isClosing close →
      (close = .rightParen → es.length ≤ ParseFault.maxArguments) → ∀ context,
      (arguments fin close context ts).Gives (es, mark) rest []
  | .none, mark, rest, close, htail, hmark, _, _, context => by
    subst htail
    rw [arguments, if_pos (show peek fin (mark :: rest) = close from hmark)]
    exact (expect_gives hmark).start fun _ => .done
  | .some (e := e) he hes, mark, rest, close, htail, hmark, hc, hfew, context => by
    have ih := @more_reads fin _ _ _ hes
    subst htail
    subst hmark
    obtain ⟨hs, hg⟩ := (binary_reads fin he).expression (hes.stops hc)
    rw [arguments, if_neg (peek_ne_of_expression he hc.stops.2.2.2), hg]
    exact ih [e] rfl rfl hc (by simpa [Nat.add_comm] using hfew) context hs

theorem more_reads (fin : Token) {ts tail : List Token} {es : List Expr} :
    More True ts es tail → ∀ (acc : List Expr) {mark : Token} {rest : List Token}
      {close : TokenKind}, tail = mark :: rest → mark.kind = close → isClosing close →
      (close = .rightParen → acc.length + es.length ≤ ParseFault.maxArguments) → ∀ context
      {all : List Token} (h : Shorter ts all),
      (argumentsTail fin close context acc [] ts h).Gives (acc.reverse ++ es, mark) rest []
  | .none, acc, mark, rest, close, htail, hmark, hc, hfew, context, all, h => by
    subst htail
    have hne : mark.kind ≠ .comma := by
      rw [hmark]
      exact hc.stops.2.2.1
    rw [argumentsTail, if_neg hne, List.append_nil]
    exact finishArguments_quiet hmark hfew
  | @More.some _ _ _ _ _ e es hcomma he hes, acc, mark, rest, close, htail, hmark, hc, hfew,
      context, all, h => by
    have ih := @more_reads fin _ _ _ hes
    subst htail
    subst hmark
    obtain ⟨hs, hg⟩ := (binary_reads fin he).expression (hes.stops hc)
    rw [argumentsTail, if_pos hcomma, hg]
    have hfew' : mark.kind = .rightParen →
        (e :: acc).length + es.length ≤ ParseFault.maxArguments := by
      intro hk
      have := hfew hk
      simp only [List.length_cons] at this ⊢
      omega
    simpa using ih (e :: acc) rfl rfl hc hfew' context (hs.behind h)

end

theorem expression_reads {e : Expr} (h : Expression True ts e rest) (hrest : Stops rest) :
    (expression fin ts).Gives e rest [] :=
  (binary_reads fin h).expression hrest

end Parser

end Lss
