import Lss.Proofs.Lexed

/-!
# Tokens tile their text

Scanned with its blanks and comments, a text is the concatenation of its tokens. Their spans follow
one another in bytes without a gap, and each token has the line that the newlines before it give.
Leaving blanks and comments out leaves out nothing else.
-/
namespace Lss

/-- Tokens that cover the bytes from `start` to `stop`, one behind the other. -/
def Tiles : Nat → List Token → Nat → Prop
  | start, [], stop => start = stop
  | start, t :: ts, stop => t.span.start = start ∧ Tiles t.span.stop ts stop

/-- A token stands in a text where its span says: it starts behind so many bytes, it is as long as
its own text, and its line is one more than the newlines before it. -/
def Token.StandsIn (source : String) (t : Token) : Prop :=
  ∃ before after : String, source = before ++ t.text ++ after ∧
    t.span.start = before.utf8ByteSize ∧ t.span.length = t.text.utf8ByteSize ∧
    t.span.line = 1 + before.toList.count '\n'

structure Tokenized (source : String) (file : Option String) (tokens : List Token) : Prop where
  text : String.join (tokens.map (·.text)) = source
  tiles : Tiles 0 tokens source.utf8ByteSize
  stands : ∀ t ∈ tokens, t.StandsIn source ∧ t.span.file = file
  /-- Only the last token is empty, and it alone marks the end. -/
  closed : ∃ (body : List Token) (fin : Token), tokens = body ++ [fin] ∧ fin.kind = .eof ∧
    fin.span.length = 0 ∧ ∀ t ∈ body, t.kind ≠ .eof ∧ 0 < t.span.length

theorem Tiles.append {a b c : Nat} {ts us : List Token} (h : Tiles a ts b) (k : Tiles b us c) :
    Tiles a (ts ++ us) c := by
  induction ts generalizing a with
  | nil =>
    cases h
    exact k
  | cons t ts ih => exact ⟨h.1, ih h.2⟩

namespace Lexeme

/-! Kinds of lexemes. -/

theorem number_kind (cs : List Char) :
    (number cs).1.kind = .integer ∨ (number cs).1.kind = .float := by
  unfold number
  dsimp only
  split
  · split
    · exact .inr rfl
    · exact .inl rfl
  · exact .inl rfl

theorem number_ne_eof (cs : List Char) : (number cs).1.kind ≠ .eof := by
  rcases number_kind cs with h | h <;> rw [h] <;> nofun

theorem word_ne_eof (cs : List Char) : (word cs).1.kind ≠ .eof := by
  unfold word
  dsimp only
  rcases Spells.ofWord_cases (String.ofList (cs.takeWhile continuesWord)) with
    ⟨k, h⟩ | ⟨p, h⟩ | h <;> rw [h] <;> nofun

theorem mark?_ne_eof {cs : List Char} {kind : TokenKind} {n : Nat}
    (h : mark? cs = some (kind, n)) : kind ≠ .eof := by
  rintro rfl
  cases (mark?_found h).1

/-- No text stands behind the mark of the end. -/
theorem first_ne_eof (c : Char) (cs : List Char) : (first c cs).1.kind ≠ .eof := by
  unfold first
  split
  · nofun
  · rw [comment_kind]
    nofun
  · rw [string_kind]
    nofun
  · split
    · next h => exact mark?_ne_eof h
    · split
      · nofun
      · split
        · exact number_ne_eof _
        · split
          · exact word_ne_eof _
          · nofun

/-- The lexemes of a text: together they are the text, and none is empty or an end. -/
theorem all_spec (cs : List Char) : (all cs).flatMap (·.text) = cs ∧
    ∀ l ∈ all cs, l.text ≠ [] ∧ l.kind ≠ .eof := by
  match cs with
  | [] => simp
  | c :: cs =>
    have _lt := length_first c cs
    obtain ⟨htext, hall⟩ := all_spec (first c cs).2
    rw [all_cons, List.flatMap_cons, htext, first_append]
    refine ⟨rfl, ?_⟩
    intro l hl
    rcases List.mem_cons.mp hl with rfl | hl
    · exact ⟨first_text_ne_nil c cs, first_ne_eof c cs⟩
    · exact hall l hl
termination_by cs.length
decreasing_by exact _lt

theorem size_eq (l : Lexeme) : l.size = (String.ofList l.text).utf8ByteSize := by
  have hsum (cs : List Char) (n : Nat) :
      cs.foldl (fun n c => n + c.utf8Size) n = n + (String.ofList cs).utf8ByteSize := by
    induction cs generalizing n with
    | nil => simp
    | cons c cs ih =>
      rw [List.foldl_cons, ih, String.ofList_cons, String.utf8ByteSize_append]
      simp [Nat.add_assoc]
  rw [size, hsum, Nat.zero_add]

theorem size_pos {l : Lexeme} (h : l.text ≠ []) : 0 < l.size := by
  obtain ⟨c, cs, hcs⟩ := List.exists_cons_of_ne_nil h
  have hc := c.utf8Size_pos
  rw [size_eq, hcs, String.ofList_cons, String.utf8ByteSize_append, String.utf8ByteSize_singleton]
  omega

end Lexeme

/-! Spans laid over lexemes. -/

def Position.behind (cs : List Char) : Position :=
  ⟨(String.ofList cs).utf8ByteSize, 1 + cs.count '\n'⟩

theorem Position.behind_after (cs : List Char) (l : Lexeme) :
    (behind cs).after l = behind (cs ++ l.text) := by
  simp [after, behind, Lexeme.size_eq, Lexeme.newlines, Nat.add_assoc]

def Token.ofPlaced (x : Lexeme × Span) : Token := ⟨x.1.kind, String.ofList x.1.text, x.2⟩

theorem placeOnto_eq (file : Option String) (acc : List (Lexeme × Span)) (p : Position)
    (ls : List Lexeme) : placeOnto file acc p ls =
      (acc.reverse ++ (placeOnto file [] p ls).1, (placeOnto file [] p ls).2) := by
  induction ls generalizing acc p with
  | nil => simp [placeOnto]
  | cons l ls ih =>
    rw [placeOnto, placeOnto, ih, ih [_]]
    simp

theorem placeOnto_cons (file : Option String) (p : Position) (l : Lexeme) (ls : List Lexeme) :
    placeOnto file [] p (l :: ls) =
      ((l, ⟨file, p.offset, p.line, l.size⟩) :: (placeOnto file [] (p.after l) ls).1,
        (placeOnto file [] (p.after l) ls).2) := by
  rw [placeOnto, placeOnto_eq]
  rfl

/-- Behind `cs`, lexemes are placed so that they tile what they spell, and the last place is the
one behind all of it. -/
theorem placeOnto_tiles (file : Option String) (cs : List Char) (ls : List Lexeme) :
    (placeOnto file [] (.behind cs) ls).2 = .behind (cs ++ ls.flatMap (·.text)) ∧
      Tiles (Position.behind cs).offset
        ((placeOnto file [] (.behind cs) ls).1.map Token.ofPlaced)
        (Position.behind (cs ++ ls.flatMap (·.text))).offset := by
  induction ls generalizing cs with
  | nil => simp [placeOnto, Tiles]
  | cons l ls ih =>
    obtain ⟨hlast, htiles⟩ := ih (cs ++ l.text)
    rw [placeOnto_cons, Position.behind_after, List.flatMap_cons, ← List.append_assoc]
    refine ⟨hlast, rfl, ?_⟩
    have hstop : (Token.ofPlaced
        (l, ⟨file, (Position.behind cs).offset, (Position.behind cs).line, l.size⟩)).span.stop =
          (Position.behind (cs ++ l.text)).offset := by
      rw [← Position.behind_after]
      rfl
    rw [hstop]
    exact htiles

/-- Each lexeme is placed behind what the ones before it spell. -/
theorem placeOnto_stands (file : Option String) (cs : List Char) (ls : List Lexeme) :
    ∀ x ∈ (placeOnto file [] (.behind cs) ls).1,
      (Token.ofPlaced x).StandsIn (String.ofList (cs ++ ls.flatMap (·.text))) ∧
        x.2.file = file ∧ x.2.length = x.1.size := by
  induction ls generalizing cs with
  | nil => simp [placeOnto]
  | cons l ls ih =>
    intro x hx
    rw [placeOnto_cons, Position.behind_after] at hx
    rw [List.flatMap_cons]
    rcases List.mem_cons.mp hx with rfl | hx
    · refine ⟨⟨String.ofList cs, String.ofList (ls.flatMap (·.text)), ?_, rfl, l.size_eq, ?_⟩,
        rfl, rfl⟩
      · simp [Token.ofPlaced, String.ofList_append, String.append_assoc]
      · simp [Token.ofPlaced, Position.behind]
    · rw [← List.append_assoc]
      exact ih (cs ++ l.text) x hx

theorem scan_eq (source : String) (file : Option String) (keepTrivia : Bool) :
    scan source file keepTrivia =
      (((placed source file).filter fun x => keepTrivia || !x.1.kind.isTrivia).map Token.ofPlaced
          ++ [⟨.eof, "", ⟨file, (Position.behind source.toList).offset,
            (Position.behind source.toList).line, 0⟩⟩],
        (placed source file).filterMap fun x => x.1.fault.map (·.toDiagnostic x.2)) := by
  have hlast := (placeOnto_tiles file [] (Lexeme.all source.toList)).1
  rw [(Lexeme.all_spec source.toList).1, List.nil_append] at hlast
  have hstart : ({} : Position) = .behind [] := rfl
  unfold scan placed
  dsimp only
  rw [hstart, hlast]
  rfl

/-- The tokens of a text tile it, and without blanks and comments they are the same less these. -/
theorem scan_tokenized (source : String) (file : Option String) :
    Tokenized source file (scan source file true).1 ∧
      scan source file false =
        ((scan source file true).1.filter (!·.kind.isTrivia), (scan source file true).2) := by
  have htext := (Lexeme.all_spec source.toList).1
  have hkeep : (scan source file true).1 = (placed source file).map Token.ofPlaced ++
      [⟨.eof, "", ⟨file, (Position.behind source.toList).offset,
        (Position.behind source.toList).line, 0⟩⟩] := by
    have hall : ((placed source file).filter fun x => true || !x.1.kind.isTrivia) =
        placed source file := List.filter_eq_self.mpr fun _ _ => rfl
    rw [scan_eq, hall]
  have htiles := (placeOnto_tiles file [] (Lexeme.all source.toList)).2
  have hstands := placeOnto_stands file [] (Lexeme.all source.toList)
  rw [htext, List.nil_append] at htiles hstands
  rw [String.ofList_toList] at hstands
  have hsize : (Position.behind source.toList).offset = source.utf8ByteSize := by
    rw [Position.behind, String.ofList_toList]
  refine ⟨⟨?_, ?_, ?_, _, _, hkeep, rfl, rfl, ?_⟩, ?_⟩
  · have hjoin (xs : List (Lexeme × Span)) : (String.join (xs.map fun x =>
        (Token.ofPlaced x).text)).toList = (xs.map Prod.fst).flatMap (·.text) := by
      induction xs with
      | nil => rfl
      | cons x xs ih => simpa [Token.ofPlaced] using ih
    rw [hkeep, ← String.toList_inj]
    simpa [hjoin, map_fst_placed, Function.comp_def] using htext
  · rw [hkeep]
    refine Tiles.append htiles ⟨rfl, ?_⟩
    rw [← hsize]
    rfl
  · intro t ht
    rw [hkeep] at ht
    rcases List.mem_append.mp ht with ht | ht
    · obtain ⟨x, hx, rfl⟩ := List.mem_map.mp ht
      exact ⟨(hstands x hx).1, (hstands x hx).2.1⟩
    · rw [List.mem_singleton.mp ht]
      exact ⟨⟨source, "", by simp, hsize, by simp, rfl⟩, rfl⟩
  · intro t ht
    obtain ⟨x, hx, rfl⟩ := List.mem_map.mp ht
    have hmem : x.1 ∈ Lexeme.all source.toList := by
      rw [← map_fst_placed source file]
      exact List.mem_map_of_mem hx
    obtain ⟨hne, hkind⟩ := (Lexeme.all_spec source.toList).2 x.1 hmem
    refine ⟨hkind, ?_⟩
    show 0 < x.2.length
    rw [(hstands x hx).2.2]
    exact Lexeme.size_pos hne
  · have hfilter : (scan source file true).1.filter (!·.kind.isTrivia) =
        (scan source file false).1 := by
      rw [hkeep, scan_eq, List.filter_append, List.filter_map]
      simp [Function.comp_def, Token.ofPlaced, TokenKind.isTrivia]
    rw [hfilter]
    refine Prod.ext rfl ?_
    rw [scan_eq, scan_eq]

end Lss
