import Mathlib.Data.List.Nodup
import Lss.Proofs.Literals
import Lss.Proofs.Tiling

/-!
# Strings between quotes

A quoted value is one token wherever it stands, and reads as the value again. Whatever a text holds,
a string literal reads without its last quote just where the scan met an end of the literal: a quote
that a backslash took along is no end, however many backslashes stand before it.
-/
namespace Lss

namespace Quoted

/-- Part of a literal behind its opening quote, in reverse, that ends in no lone backslash. -/
inductive Whole : List Char → Prop
  | nil : Whole []
  | plain {c : Char} {cs : List Char} : c ≠ '"' → c ≠ '\\' → Whole cs → Whole (c :: cs)
  | escaped {c : Char} {cs : List Char} : Whole cs → Whole (c :: '\\' :: cs)

def IsClosed (cs : List Char) : Prop := '"' :: (inner cs ++ ['"']) = cs

def IsOpen (cs : List Char) : Prop := '"' :: inner cs = cs

instance (cs : List Char) : Decidable (IsClosed cs) := inferInstanceAs (Decidable (_ = _))

instance (cs : List Char) : Decidable (IsOpen cs) := inferInstanceAs (Decidable (_ = _))

theorem IsOpen.not_isClosed {cs : List Char} (h : IsOpen cs) : ¬ IsClosed cs := by
  intro hclosed
  have hlen := congrArg List.length (h.trans hclosed.symm)
  simp at hlen

variable {r : List Char}

/-- Backslashes at the end come in pairs. -/
theorem Whole.even (h : Whole r) : (r.takeWhile (· == '\\')).length % 2 = 0 := by
  induction h with
  | nil => rfl
  | plain _ hback _ => simp [hback]
  | @escaped c cs _ ih =>
    by_cases hc : c = '\\'
    · simp only [hc, List.takeWhile_cons, beq_self_eq_true, if_true, List.length_cons]
      omega
    · simp [hc]

theorem Whole.endsEscaping_eq_false (h : Whole r) : endsEscaping r.reverse = false := by
  rw [Quoted.endsEscaping, List.reverse_reverse, h.even]
  rfl

/-- A quote inside a literal stands behind an odd run of backslashes. -/
theorem Whole.endsEscaping_of_quote (h : Whole ('"' :: r)) : endsEscaping r.reverse = true := by
  cases h with
  | plain hquote _ _ => exact absurd rfl hquote
  | @escaped _ cs h =>
    have heven := h.even
    rw [Quoted.endsEscaping, List.reverse_reverse]
    simp only [List.takeWhile_cons, beq_self_eq_true, if_true, List.length_cons, beq_iff_eq]
    omega

theorem inner_closed (h : Whole r) : inner ('"' :: (r.reverse ++ ['"'])) = r.reverse := by
  simp [inner, h.endsEscaping_eq_false]

/-- Without an end, nothing is taken off at the end. -/
theorem inner_open (h : Whole r) : inner ('"' :: r.reverse) = r.reverse := by
  cases r with
  | nil => rfl
  | cons c r =>
    by_cases hc : c = '"'
    · subst hc
      simp [inner, h.endsEscaping_of_quote]
    · simp [inner, hc]

theorem isClosed_of_whole (h : Whole r) : IsClosed ('"' :: (r.reverse ++ ['"'])) := by
  rw [IsClosed, inner_closed h]

theorem isOpen_of_whole (h : Whole r) : IsOpen ('"' :: r.reverse) := by
  rw [IsOpen, inner_open h]

/-- A lone backslash at the end is no quote. -/
theorem isOpen_of_lone (cs : List Char) : IsOpen ('"' :: (cs ++ ['\\'])) := by
  simp [IsOpen, inner]

/-! A quoted value reads as itself. -/

theorem whole_escape (c : Char) (h : Whole r) : Whole ((escape c).reverse ++ r) := by
  unfold escape
  split
  · exact .escaped h
  · exact .escaped h
  · exact .escaped h
  · exact .escaped h
  · exact .escaped h
  · exact .escaped h
  · next hquote hback _ _ _ _ => exact .plain hquote hback h

theorem whole_escaped (cs : List Char) : Whole (cs.flatMap escape).reverse := by
  have key (r : List Char) (h : Whole r) : Whole ((cs.flatMap escape).reverse ++ r) := by
    induction cs generalizing r with
    | nil => exact h
    | cons c cs ih =>
      rw [List.flatMap_cons, List.reverse_append, List.append_assoc]
      exact ih _ (whole_escape c h)
  simpa using key [] .nil

theorem resolveOnto_escape (acc : List Char) (c : Char) (cs : List Char) :
    resolveOnto acc (escape c ++ cs) = resolveOnto (c :: acc) cs := by
  unfold escape
  split
  · rfl
  · rfl
  · rfl
  · rfl
  · rfl
  · rfl
  · next hback _ _ _ _ =>
    rw [List.singleton_append, resolveOnto]
    · exact fun h _ => hback h
    · exact fun _ _ h _ => hback h

theorem resolve_escaped (cs : List Char) : resolve (cs.flatMap escape) = cs := by
  have key (acc : List Char) : resolveOnto acc (cs.flatMap escape) = acc.reverse ++ cs := by
    induction cs generalizing acc with
    | nil => simp [resolveOnto]
    | cons c cs ih => rw [List.flatMap_cons, resolveOnto_escape, ih, List.reverse_cons]; simp
  exact key []

theorem decode_encode (cs : List Char) : decode (encode cs) = cs := by
  have hinner := inner_closed (whole_escaped cs)
  rw [List.reverse_reverse] at hinner
  rw [decode, encode, List.cons_append, hinner, resolve_escaped]

end Quoted

theorem unquote_quote (value : String) : unquote (quote value) = value := by
  rw [unquote, quote, String.toList_ofList, Quoted.decode_encode, String.ofList_toList]

namespace Lexeme

open Quoted

/-- A literal that the scan saw closed reads as one; any other is reported, and reads as open. -/
inductive Quotes (l : Lexeme) : Prop
  | closed : l.fault = none → IsClosed l.text → Quotes l
  | cut {f : LexFault} : l.fault = some f → f = .stringAtLineEnd ∨ f = .stringAtEnd →
      IsOpen l.text → Quotes l

theorem string_quotes {r : List Char} (hr : Whole r) (cs : List Char) :
    Quotes (string (r ++ ['"']) cs).1 := by
  generalize hacc : r ++ ['"'] = acc
  fun_induction string acc cs generalizing r with
  | case1 => exact .cut rfl (.inr rfl) (by simpa [← hacc] using isOpen_of_whole hr)
  | case2 => exact .cut rfl (.inl rfl) (by simpa [← hacc] using isOpen_of_whole hr)
  | case3 => exact .closed rfl (by simpa [← hacc] using isClosed_of_whole hr)
  | case4 => exact .cut rfl (.inr rfl) (by simpa [← hacc] using isOpen_of_lone r.reverse)
  | case5 => exact .cut rfl (.inl rfl) (by simpa [← hacc] using isOpen_of_lone r.reverse)
  | case6 acc c cs _ ih => exact ih (.escaped hr) (by rw [← hacc]; rfl)
  | case7 acc c cs _ hquote hlast _ hmore ih =>
    have hback : c ≠ '\\' := by
      rintro rfl
      cases cs with
      | nil => exact hlast rfl rfl
      | cons d cs => exact hmore d cs rfl rfl
    exact ih (.plain hquote hback hr) (by rw [← hacc]; rfl)

/-- Only a quote starts a string. -/
theorem eq_quote_of_first {c : Char} {cs : List Char} (h : (first c cs).1.kind = .string) :
    c = '"' := by
  unfold first at h
  split at h
  · cases h
  · rw [comment_kind] at h
    cases h
  · rfl
  · split at h
    · next hmark =>
      obtain rfl : _ = TokenKind.string := h
      cases (mark?_found hmark).1
    · split at h
      · cases h
      · split at h
        · rcases number_kind (c :: cs) with hn | hn <;> rw [hn] at h <;> cases h
        · split at h
          · have hword : TokenKind.ofWord _ = .string := h
            rcases Spells.ofWord_cases (String.ofList ((c :: cs).takeWhile continuesWord)) with
              ⟨k, hk⟩ | ⟨p, hk⟩ | hk <;> rw [hk] at hword <;> cases hword
          · cases h

theorem all_quotes (cs : List Char) : ∀ l ∈ all cs, l.kind = .string → Quotes l := by
  match cs with
  | [] => simp
  | c :: cs =>
    have _lt := length_first c cs
    rw [all_cons]
    refine List.forall_mem_cons.mpr ⟨fun h => ?_, all_quotes _⟩
    obtain rfl := eq_quote_of_first h
    exact string_quotes .nil cs
termination_by cs.length
decreasing_by exact _lt

/-- A quoted value is cut off whole. -/
theorem all_quote (value rest : List Char) :
    all (encode value ++ rest) = ⟨.string, encode value, none⟩ :: all rest := by
  have hcut : first '"' (value.flatMap escape ++ ['"'] ++ rest)
      = (⟨.string, encode value, none⟩, rest) :=
    string_append_of_closes (closes_escaped value)
  have hcons : encode value ++ rest = '"' :: (value.flatMap escape ++ ['"'] ++ rest) := rfl
  rw [hcons, all_cons, hcut]

end Lexeme

/-! Each lexeme has a place of its own. -/

theorem Tiles.pairwise {a b : Nat} {ts : List Token} (h : Tiles a ts b)
    (hpos : ∀ t ∈ ts, 0 < t.span.length) :
    (∀ t ∈ ts, a ≤ t.span.start) ∧ ts.Pairwise (·.span.start < ·.span.start) := by
  induction ts generalizing a with
  | nil => simp
  | cons t ts ih =>
    obtain ⟨rfl, h⟩ := h
    obtain ⟨hfirst, hrest⟩ := List.forall_mem_cons.mp hpos
    obtain ⟨hle, hpairs⟩ := ih h hrest
    have hstop : t.span.start < t.span.stop := Nat.lt_add_of_pos_right hfirst
    exact ⟨List.forall_mem_cons.mpr ⟨Nat.le_refl _, fun u hu =>
      Nat.le_of_lt (Nat.lt_of_lt_of_le hstop (hle u hu))⟩,
      hpairs.cons fun u hu => Nat.lt_of_lt_of_le hstop (hle u hu)⟩

theorem nodup_placed (source : String) (file : Option String) :
    ((placed source file).map (·.2.start)).Nodup := by
  have htiles := (placeOnto_tiles file [] (Lexeme.all source.toList)).2
  have hstands := placeOnto_stands file [] (Lexeme.all source.toList)
  have hpos : ∀ t ∈ (placed source file).map Token.ofPlaced, 0 < t.span.length := by
    intro t ht
    obtain ⟨x, hx, rfl⟩ := List.mem_map.mp ht
    have hmem : x.1 ∈ Lexeme.all source.toList := by
      rw [← map_fst_placed source file]
      exact List.mem_map_of_mem hx
    show 0 < x.2.length
    rw [(hstands x hx).2.2]
    exact Lexeme.size_pos ((Lexeme.all_spec source.toList).2 x.1 hmem).1
  have hpairs := List.pairwise_map.mp (htiles.pairwise hpos).2
  exact List.pairwise_map.mpr (hpairs.imp Nat.ne_of_lt)

def Token.IsCut (t : Token) (reported : List Diagnostic) : Prop :=
  LexFault.stringAtLineEnd.toDiagnostic t.span ∈ reported ∨
    LexFault.stringAtEnd.toDiagnostic t.span ∈ reported

instance (t : Token) (reported : List Diagnostic) : Decidable (t.IsCut reported) :=
  inferInstanceAs (Decidable (_ ∨ _))

section

variable {source : String} {file : Option String} {keepTrivia : Bool} {x : Lexeme × Span}

theorem toDiagnostic_mem_scan (hx : x ∈ placed source file) {f : LexFault}
    (hf : x.1.fault = some f) : f.toDiagnostic x.2 ∈ (scan source file keepTrivia).2 := by
  rw [scan_eq]
  exact List.mem_filterMap.mpr ⟨x, hx, by rw [hf]; rfl⟩

/-- Nothing is reported at the place of a lexeme without a fault. -/
theorem span_ne_of_mem_scan (hx : x ∈ placed source file) (hfault : x.1.fault = none) :
    ∀ d ∈ (scan source file keepTrivia).2, d.span ≠ x.2 := by
  intro d hd hspan
  rw [scan_eq] at hd
  obtain ⟨y, hy, hreport⟩ := List.mem_filterMap.mp hd
  obtain ⟨f, hf, rfl⟩ := Option.map_eq_some_iff.mp hreport
  obtain rfl := List.inj_on_of_nodup_map (nodup_placed source file) hy hx
    (congrArg Span.start hspan)
  rw [hfault] at hf
  cases hf

theorem not_isCut {t : Token} {reported : List Diagnostic} (h : ∀ d ∈ reported, d.span ≠ t.span) :
    ¬ t.IsCut reported := by
  rintro (hcut | hcut)
  · exact h _ hcut rfl
  · exact h _ hcut rfl

/-- A string token reads as closed or open as the scan saw it. -/
theorem isClosed_iff_of_mem_placed (hx : x ∈ placed source file) (hkind : x.1.kind = .string) :
    (Quoted.IsClosed x.1.text ↔ ¬ (Token.ofPlaced x).IsCut (scan source file keepTrivia).2) ∧
      (Quoted.IsOpen x.1.text ↔ (Token.ofPlaced x).IsCut (scan source file keepTrivia).2) := by
  have hmem : x.1 ∈ Lexeme.all source.toList := by
    rw [← map_fst_placed source file]
    exact List.mem_map_of_mem hx
  cases Lexeme.all_quotes source.toList x.1 hmem hkind with
  | closed hfault hclosed =>
    have hcut : ¬ (Token.ofPlaced x).IsCut (scan source file keepTrivia).2 :=
      not_isCut (span_ne_of_mem_scan hx hfault)
    exact ⟨iff_of_true hclosed hcut, iff_of_false (fun h => h.not_isClosed hclosed) hcut⟩
  | cut hfault hends hopen =>
    have hreport : _ ∈ (scan source file keepTrivia).2 := toDiagnostic_mem_scan hx hfault
    have hcut : (Token.ofPlaced x).IsCut (scan source file keepTrivia).2 := by
      rcases hends with rfl | rfl
      · exact .inl hreport
      · exact .inr hreport
    exact ⟨iff_of_false hopen.not_isClosed (not_not_intro hcut), iff_of_true hopen hcut⟩

end

/-- A quoted value is scanned as one token with that value, whatever follows it. And a string token
of any text is read without a quote at its end just where the scan saw that end. -/
theorem scan_quote (value rest source : String) (file : Option String) (keepTrivia : Bool) :
    (∃ t tokens, (scan (quote value ++ rest) file keepTrivia).1 = t :: tokens ∧ t.kind = .string ∧
      t.text = quote value ∧ t.stringValue = value ∧
      ∀ d ∈ (scan (quote value ++ rest) file keepTrivia).2, d.span ≠ t.span) ∧
    ∀ t ∈ (scan source file keepTrivia).1, t.kind = .string →
      (Quoted.IsClosed t.text.toList ↔ ¬ t.IsCut (scan source file keepTrivia).2) ∧
        (Quoted.IsOpen t.text.toList ↔ t.IsCut (scan source file keepTrivia).2) := by
  constructor
  · have hchars : (quote value ++ rest).toList = Quoted.encode value.toList ++ rest.toList := by
      rw [String.toList_append, quote, String.toList_ofList]
    obtain ⟨span, more, hplaced⟩ : ∃ span more, placed (quote value ++ rest) file
        = (⟨.string, Quoted.encode value.toList, none⟩, span) :: more := by
      rw [placed, hchars, Lexeme.all_quote]
      exact ⟨_, _, congrArg Prod.fst (placeOnto_cons file {} _ _)⟩
    have hmem := hplaced ▸ List.mem_cons_self
    have hkept : (keepTrivia || !TokenKind.string.isTrivia) = true := Bool.or_true _
    obtain ⟨tokens, htokens⟩ : ∃ tokens, (scan (quote value ++ rest) file keepTrivia).1
        = ⟨.string, quote value, span⟩ :: tokens := by
      rw [scan_eq, hplaced, List.filter_cons, if_pos hkept, List.map_cons, List.cons_append]
      exact ⟨_, rfl⟩
    exact ⟨_, tokens, htokens, rfl, rfl, unquote_quote value, span_ne_of_mem_scan hmem rfl⟩
  · intro t ht hkind
    rw [scan_eq] at ht
    rcases List.mem_append.mp ht with ht | ht
    · obtain ⟨x, hx, rfl⟩ := List.mem_map.mp ht
      have hread := @isClosed_iff_of_mem_placed source file keepTrivia x
        (List.mem_filter.mp hx).1 hkind
      rwa [← String.toList_ofList (l := x.1.text)] at hread
    · rw [List.mem_singleton.mp ht] at hkind
      cases hkind

/-- A literal that ends behind two backslashes, and one that does not end, at a quote behind one. -/
def backslashes : String := "\"a\\\\\" \"b\\\""

theorem scan_quote_backslashes : ∃ closed cut fin : Token,
    (scan backslashes none false).1 = [closed, cut, fin] ∧
      closed.kind = .string ∧ Quoted.IsClosed closed.text.toList ∧ closed.stringValue = "a\\" ∧
      cut.kind = .string ∧ Quoted.IsOpen cut.text.toList ∧ cut.stringValue = "b\"" := by
  have hrun : (scan backslashes none false).1.map (fun t =>
      (t.kind, t.stringValue, decide (t.IsCut (scan backslashes none false).2))) =
        [(.string, "a\\", false), (.string, "b\"", true), (.eof, "", false)] := by
    decide +kernel
  obtain ⟨closed, _, htokens, hfirst, hrest⟩ := List.map_eq_cons_iff.mp hrun
  obtain ⟨cut, _, rfl, hsecond, hrest⟩ := List.map_eq_cons_iff.mp hrest
  obtain ⟨fin, rfl, -⟩ := List.map_eq_singleton_iff.mp hrest
  simp only [Prod.mk.injEq, decide_eq_false_iff_not, decide_eq_true_eq] at hfirst hsecond
  obtain ⟨hclosed, hvalue, hends⟩ := hfirst
  obtain ⟨hcut, hvalue', hopen⟩ := hsecond
  have hspec := (scan_quote "" "" backslashes none false).2
  rw [htokens] at hspec
  exact ⟨closed, cut, fin, htokens, hclosed, (hspec closed (by simp) hclosed).1.mpr hends, hvalue,
    hcut, (hspec cut (by simp) hcut).2.mpr hopen, hvalue'⟩

end Lss
