import Lss.Proofs.Spelling
import Lss.Tree.Parser.Unit

/-!
# Texts and their tokens

`Lexed cs ts` says that the text `cs` has no lexical fault and that `ts` are its significant tokens,
places aside. Texts are put together from the right: blanks change nothing, and a spelling adds its
token in front of what it does not run into.
-/
namespace Lss

namespace Token

def bare (t : Token) : Token := .synthetic t.kind t.text

def Spelled (t : Token) : Prop := Spells t.kind t.text.toList

@[simp] theorem bare_kind (t : Token) : t.bare.kind = t.kind := rfl

theorem of_spells {kind : TokenKind} {text : String} (h : kind.lexeme? = some text) :
    (of kind).text = text := by
  change kind.lexeme?.getD "" = text
  rw [h]
  rfl

end Token

namespace Lexeme

def bare (l : Lexeme) : Token := .synthetic l.kind (String.ofList l.text)

def isSignificant (l : Lexeme) : Bool := !l.kind.isTrivia

theorem allOnto_eq (acc : List Lexeme) (cs : List Char) :
    allOnto acc cs = acc.reverse ++ all cs := by
  match cs with
  | [] => simp [all, allOnto]
  | c :: cs =>
    have _lt := length_first c cs
    rw [all, allOnto, allOnto, allOnto_eq (_ :: acc), allOnto_eq [_]]
    simp
termination_by cs.length
decreasing_by all_goals exact _lt

@[simp] theorem all_nil : all [] = [] := by simp [all, allOnto]

theorem all_cons (c : Char) (cs : List Char) :
    all (c :: cs) = (first c cs).1 :: all (first c cs).2 := by
  rw [all, allOnto, allOnto_eq]
  rfl

end Lexeme

structure Lexed (cs : List Char) (ts : List Token) : Prop where
  faultless : ∀ l ∈ Lexeme.all cs, l.fault = none
  tokens : ((Lexeme.all cs).filter Lexeme.isSignificant).map Lexeme.bare = ts

namespace Lexed

variable {c : Char} {cs next : List Char} {ts : List Token} {kind : TokenKind} {text : String}

theorem nil : Lexed [] [] := ⟨by simp, by simp⟩

/-- What stands behind the first lexeme. -/
theorem cons_iff : Lexed (c :: cs) ts ↔ (Lexeme.first c cs).1.fault = none ∧
    ∃ ts', Lexed (Lexeme.first c cs).2 ts' ∧
      ts = if (Lexeme.first c cs).1.isSignificant
        then (Lexeme.first c cs).1.bare :: ts' else ts' := by
  constructor
  · rintro ⟨hf, rfl⟩
    rw [Lexeme.all_cons] at hf ⊢
    refine ⟨hf _ List.mem_cons_self, _, ⟨fun l hl => hf l (List.mem_cons_of_mem _ hl), rfl⟩, ?_⟩
    rw [List.filter_cons]
    split <;> rfl
  · rintro ⟨hf, ts', ⟨hf', rfl⟩, rfl⟩
    constructor
    · intro l hl
      rw [Lexeme.all_cons] at hl
      cases hl with
      | head => exact hf
      | tail _ hl => exact hf' l hl
    · rw [Lexeme.all_cons, List.filter_cons]
      split <;> rfl

/-- A token in front, where the text is cut behind it. -/
theorem first {cs' : List Char} (h : Lexed next ts)
    (hc : Lexeme.first c cs' = (⟨kind, c :: cs, none⟩, next)) (hk : kind.isTrivia = false) :
    Lexed (c :: cs') (.synthetic kind (String.ofList (c :: cs)) :: ts) := by
  refine cons_iff.mpr ⟨by rw [hc], ts, by rw [hc]; exact h, ?_⟩
  rw [hc]
  simp [Lexeme.isSignificant, hk, Lexeme.bare]

theorem dropWhile_isBlank (h : Lexed cs ts) : Lexed (cs.dropWhile Text.isBlank) ts := by
  cases cs with
  | nil => exact h
  | cons c cs =>
    cases hc : Text.isBlank c with
    | false => simpa [List.dropWhile_cons, hc] using h
    | true =>
      obtain ⟨-, ts', h', rfl⟩ := cons_iff.mp h
      rw [Lexeme.first_blank hc] at h' ⊢
      rw [List.dropWhile_cons_of_pos hc]
      exact h'

/-- A blank in front changes nothing, also where it lengthens another. -/
theorem blank (hc : Text.isBlank c) (h : Lexed cs ts) : Lexed (c :: cs) ts := by
  refine cons_iff.mpr ?_
  rw [Lexeme.first_blank hc]
  exact ⟨rfl, ts, h.dropWhile_isBlank, rfl⟩

theorem blanks (hcs : ∀ c ∈ cs, Text.isBlank c) (h : Lexed next ts) : Lexed (cs ++ next) ts := by
  induction cs with
  | nil => exact h
  | cons c cs ih =>
    exact blank (hcs c List.mem_cons_self) (ih fun d hd => hcs d (List.mem_cons_of_mem _ hd))

end Lexed

namespace Spells

variable {kind : TokenKind} {text : List Char}

theorem mark_ne_nil {text : String} (hm : kind.isMark) (ht : kind.lexeme? = some text) :
    text.toList ≠ [] := by
  cases kind <;> cases hm <;> cases ht
  case access op => cases op <;> decide
  case binary op => cases op <;> decide
  all_goals decide

theorem ne_nil (h : Spells kind text) : text ≠ [] := by
  cases h with
  | mark hm ht => exact mark_ne_nil hm ht
  | _ => simp

theorem ofWord_cases (w : String) : (∃ k, TokenKind.ofWord w = .keyword k) ∨
    (∃ p, TokenKind.ofWord w = .property p) ∨ TokenKind.ofWord w = .identifier := by
  unfold TokenKind.ofWord
  split
  · exact .inl ⟨_, rfl⟩
  · split
    · exact .inr (.inl ⟨_, rfl⟩)
    · exact .inr (.inr rfl)

theorem not_isTrivia (h : Spells kind text) : kind.isTrivia = false := by
  cases h with
  | word => rcases ofWord_cases _ with ⟨k, h⟩ | ⟨p, h⟩ | h <;> rw [h] <;> rfl
  | mark hm => cases kind <;> first | rfl | cases hm
  | _ => rfl

theorem head_ne_minus (h : Spells kind text) (hk : kind.isMark = false) :
    text.head? ≠ some '-' := by
  cases h with
  | word hc =>
    rintro ⟨⟩
    exact absurd hc (by decide)
  | integer hcs =>
    rintro ⟨⟩
    exact absurd (hcs '-' List.mem_cons_self) (by decide)
  | float hcs =>
    rintro ⟨⟩
    exact absurd (hcs '-' List.mem_cons_self) (by decide)
  | string => exact fun h => absurd (Option.some.inj h) (by decide)
  | mark hm => rw [hm] at hk; cases hk

/-- What is not a mark starts with nothing that lengthens one. -/
theorem first (h : Spells kind text) (hk : kind.isMark = false) :
    ∃ c cs, text = c :: cs ∧ Lexeme.lengthensMark c = false := by
  have digit {c : Char} (hc : c.isDigit) : Lexeme.lengthensMark c = false :=
    Lexeme.lengthensMark_eq_false (Lexeme.continuesWord_of_isDigit hc)
  cases h with
  | word hc =>
    exact ⟨_, _, rfl, Lexeme.lengthensMark_eq_false (Lexeme.continuesWord_of_startsWord hc)⟩
  | integer hcs => exact ⟨_, _, rfl, digit (hcs _ List.mem_cons_self)⟩
  | float hcs => exact ⟨_, _, rfl, digit (hcs _ List.mem_cons_self)⟩
  | string => exact ⟨_, _, rfl, by decide⟩
  | mark hm => rw [hm] at hk; cases hk

theorem isMark_of_name (hk : kind = .identifier ∨ kind.isProperty) : kind.isMark = false := by
  rcases hk with rfl | hk
  · rfl
  · cases kind <;> first | rfl | cases hk

/-- Names are words. -/
theorem startsWord (h : Spells kind text) (hk : kind = .identifier ∨ kind.isProperty) :
    ∃ c cs, text = c :: cs ∧ Lexeme.startsWord c := by
  cases h with
  | word hc => exact ⟨_, _, rfl, hc⟩
  | mark hm => rw [isMark_of_name hk] at hm; cases hm
  | _ => simp [TokenKind.isProperty] at hk

theorem ne_eof (h : Spells kind text) : kind ≠ .eof := by
  rintro rfl
  generalize hk : TokenKind.eof = kind at h
  cases h with
  | word => rcases ofWord_cases _ with ⟨k, h⟩ | ⟨p, h⟩ | h <;> rw [h] at hk <;> cases hk
  | mark hm => subst hk; cases hm
  | _ => cases hk

end Spells

namespace Lexed

variable {next : List Char} {ts : List Token} {kind : TokenKind} {text : String}

/-- A word, a number or a string in front of a text apart from it. -/
theorem token {t : Token} (ht : t.Spelled) (hk : t.kind.isMark = false) (hn : Apart next)
    (h : Lexed next ts) : Lexed (t.text.toList ++ next) (t.bare :: ts) := by
  have hs := ht
  unfold Token.Spelled at hs
  cases hc : t.text.toList with
  | nil => exact absurd hc ht.ne_nil
  | cons c cs =>
    rw [hc] at hs
    have := h.first (Lexeme.first_append_of_spells hs hk hn) ht.not_isTrivia
    rwa [← hc, String.ofList_toList] at this

/-- A mark in front of a text that does not go on with a longer one. -/
theorem mark (hm : kind.isMark) (ht : kind.lexeme? = some text)
    (hn : kind.isBracket = false → ∀ d ∈ next.head?, Lexeme.lengthensMark d = false)
    (h : Lexed next ts) : Lexed (text.toList ++ next) (.of kind :: ts) := by
  have hs := Spells.mark hm ht
  cases hc : text.toList with
  | nil => exact absurd hc hs.ne_nil
  | cons c cs =>
    have := h.first (Lexeme.first_append_of_mark hm ht hc hn) hs.not_isTrivia
    rw [← hc, String.ofList_toList, ← Token.of_spells ht] at this
    exact this

end Lexed

/-! From texts to what a parser gets. -/

theorem Lexeme.spells_of_mem_all {l : Lexeme} {cs : List Char} (h : l ∈ all cs)
    (hf : l.fault = none) (hs : l.isSignificant) : Spells l.kind l.text := by
  match cs with
  | [] => simp at h
  | c :: cs =>
    have _lt := length_first c cs
    rw [all_cons] at h
    cases h with
    | head => exact first_spells c cs hf (by simpa [isSignificant] using hs)
    | tail _ h => exact spells_of_mem_all h hf hs
termination_by cs.length
decreasing_by exact _lt

theorem map_fst_placeOnto (file : Option String) (acc : List (Lexeme × Span)) (p : Position)
    (ls : List Lexeme) :
    (placeOnto file acc p ls).1.map Prod.fst = acc.reverse.map Prod.fst ++ ls := by
  induction ls generalizing acc p with
  | nil => simp [placeOnto]
  | cons l ls ih => simp [placeOnto, ih]

theorem file_of_mem_placeOnto {file : Option String} {acc : List (Lexeme × Span)} {p : Position}
    {ls : List Lexeme} (h : ∀ x ∈ acc, x.2.file = file) :
    ∀ x ∈ (placeOnto file acc p ls).1, x.2.file = file := by
  induction ls generalizing acc p with
  | nil => simpa [placeOnto] using h
  | cons l ls ih =>
    refine ih ?_
    intro x hx
    cases hx with
    | head => rfl
    | tail _ hx => exact h x hx

def placed (source : String) (file : Option String) : List (Lexeme × Span) :=
  (placeOnto file [] {} (Lexeme.all source.toList)).1

theorem map_fst_placed (source : String) (file : Option String) :
    (placed source file).map Prod.fst = Lexeme.all source.toList := by
  rw [placed, map_fst_placeOnto]
  rfl

/-- Nothing is complained of just where no lexeme has a fault. -/
theorem scan_faultless {source : String} {file : Option String} :
    (scan source file false).2 = [] ↔ ∀ l ∈ Lexeme.all source.toList, l.fault = none := by
  rw [← map_fst_placed source file]
  change (placed source file).filterMap _ = [] ↔ _
  rw [List.filterMap_eq_nil_iff, List.forall_mem_map]
  exact forall₂_congr fun x _ => Option.map_eq_none_iff

def significant (source : String) (file : Option String) : List Token :=
  ((placed source file).filter (·.1.isSignificant)).map
    fun x => ⟨x.1.kind, String.ofList x.1.text, x.2⟩

theorem map_bare_significant (source : String) (file : Option String) :
    (significant source file).map Token.bare
      = ((Lexeme.all source.toList).filter Lexeme.isSignificant).map Lexeme.bare := by
  rw [← map_fst_placed source file, List.filter_map, significant, List.map_map, List.map_map]
  rfl

/-- A parser gets the significant tokens, each a spelling of its kind, and an end mark. -/
theorem ofTokens_scan {source : String} {file : Option String}
    (h : (scan source file false).2 = []) : (∀ t ∈ significant source file, t.Spelled) ∧
      ∃ fin, TokenStream.ofTokens (scan source file false).1 = ⟨significant source file, fin⟩ ∧
        ((significant source file).headD fin).span.file = file := by
  have hspelled : ∀ t ∈ significant source file, t.Spelled := by
    intro t ht
    obtain ⟨x, hx, rfl⟩ := List.mem_map.mp ht
    obtain ⟨hx, hs⟩ := List.mem_filter.mp hx
    have hl : x.1 ∈ Lexeme.all source.toList := by
      rw [← map_fst_placed source file]
      exact List.mem_map_of_mem hx
    have := Lexeme.spells_of_mem_all hl (scan_faultless.mp h _ hl) hs
    rwa [Token.Spelled, String.toList_ofList]
  refine ⟨hspelled, ?_⟩
  obtain ⟨fin, hfin, hfile, htokens⟩ : ∃ fin : Token, fin.kind = .eof ∧ fin.span.file = file ∧
      (scan source file false).1 = significant source file ++ [fin] :=
    ⟨⟨.eof, "", _⟩, rfl, rfl, rfl⟩
  refine ⟨fin, ?_, ?_⟩
  · have hkept : (scan source file false).1.filter (fun t => !t.kind.isTrivia)
        = significant source file ++ [fin] := by
      rw [htokens, List.filter_eq_self]
      intro t ht
      rcases List.mem_append.mp ht with ht | ht
      · simp [(hspelled t ht).not_isTrivia]
      · rw [List.mem_singleton.mp ht, hfin]
        rfl
    have hopen : ∀ t ∈ significant source file, (!(t.kind == .eof)) = true := by
      intro t ht
      simpa using (hspelled t ht).ne_eof
    unfold TokenStream.ofTokens
    simp only [hkept]
    congr 1
    · rw [List.takeWhile_append_of_pos hopen]
      simp [hfin]
    · rw [List.find?_append, List.find?_eq_none.mpr fun t ht => by simpa using hopen t ht]
      simp [hfin]
  · cases hs : significant source file with
    | nil => exact hfile
    | cons t ts =>
      have ht : t ∈ significant source file := by simp [hs]
      obtain ⟨x, hx, rfl⟩ := List.mem_map.mp ht
      exact file_of_mem_placeOnto (by simp) x (List.mem_filter.mp hx).1

/-- What is parsed for a source, said of its significant tokens. -/
theorem SourceUnit.ofSource_eq {source : String} {file : Option String}
    (h : (scan source file false).2 = []) :
    ∃ fin, SourceUnit.ofSource source file
      = Parser.declarations fin { file } [] (significant source file) := by
  obtain ⟨fin, hstream, hfile⟩ := (ofTokens_scan h).2
  refine ⟨fin, ?_⟩
  have hofTokens : SourceUnit.ofTokens (scan source file false).1
      = Parser.declarations fin { file } [] (significant source file) := by
    rw [SourceUnit.ofTokens, hstream, TokenStream.parse, hfile]
  unfold SourceUnit.ofSource
  rw [← hofTokens,
    show scan source file false = ((scan source file false).1, []) from Prod.ext rfl h]
  rfl

theorem Lexed.scan_eq_nil {text : String} {ts : List Token} (h : Lexed text.toList ts)
    (file : Option String) : (scan text file false).2 = [] :=
  scan_faultless.mpr h.faultless

theorem Lexed.map_bare_significant {text : String} {ts : List Token} (h : Lexed text.toList ts)
    (file : Option String) : (significant text file).map Token.bare = ts := by
  rw [Lss.map_bare_significant, h.tokens]

end Lss
