import Lss.Proofs.Formed

/-!
# Literals of values

Whatever number or string a literal is made for, its text is that of one token, behind a sign where
the number is negative.
-/
namespace Lss

theorem Spells.of_digits {cs : List Char} (hne : cs ≠ []) (h : ∀ c ∈ cs, c.isDigit) :
    Spells .integer cs := by
  cases cs with
  | nil => exact absurd rfl hne
  | cons c cs => exact .integer h

theorem Spells.of_point {cs ds : List Char} (hcs : cs ≠ []) (hc : ∀ c ∈ cs, c.isDigit)
    (hds : ds ≠ []) (hd : ∀ d ∈ ds, d.isDigit) : Spells .float (cs ++ '.' :: ds) := by
  cases cs with
  | nil => exact absurd rfl hcs
  | cons c cs =>
    cases ds with
    | nil => exact absurd rfl hds
    | cons d ds => exact .float hc hd

theorem isDigit_toDigits (n : Nat) : ∀ c ∈ Nat.toDigits 10 n, c.isDigit := fun _ h =>
  Nat.isDigit_of_mem_toDigits (by decide) (by decide) h

theorem spells_natural (n : Nat) : Spells .integer (toString n).toList := by
  rw [Nat.toString_eq_ofList_toDigits, String.toList_ofList]
  exact .of_digits Nat.toDigits_ne_nil (isDigit_toDigits n)

theorem isDigit_zero : ∀ c ∈ ['0'], c.isDigit := List.all_eq_true.mp (by decide)

theorem isDigit_append_zeros {ds : List Char} (h : ∀ d ∈ ds, d.isDigit) (n : Nat) :
    ∀ d ∈ ds ++ List.replicate n '0', d.isDigit := by
  intro d hd
  rcases List.mem_append.mp hd with hd | hd
  · exact h d hd
  · rw [(List.mem_replicate.mp hd).2]
    decide

/-- There are digits on both sides of the point, wherever it stands. -/
theorem spells_positionalText {ds : List Char} (hne : ds ≠ []) (h : ∀ d ∈ ds, d.isDigit)
    (point : Int) : Spells .float (Binary32.positionalText ds point).toList := by
  unfold Binary32.positionalText
  split
  · rw [String.toList_ofList]
    refine Spells.of_point (show ['0'] ≠ [] by simp) isDigit_zero (by simp [hne]) ?_
    intro d hd
    rcases List.mem_append.mp hd with hd | hd
    · rw [(List.mem_replicate.mp hd).2]
      decide
    · exact h d hd
  · next hpoint =>
    have hpos : 0 < point.toNat := by omega
    dsimp only
    split
    · rw [String.toList_ofList]
      exact .of_point (by simp [hne]) (isDigit_append_zeros h _) (by simp) isDigit_zero
    · next hlong =>
      rw [String.toList_ofList]
      refine .of_point ?_ (fun d hd => h d (List.mem_of_mem_take hd)) ?_
        fun d hd => h d (List.mem_of_mem_drop hd)
      · simp only [ne_eq, List.take_eq_nil_iff, hne, or_false]
        omega
      · simp only [ne_eq, List.drop_eq_nil_iff]
        omega

/-- The text of a finite number: digits around a point, behind a sign where it is negative. -/
theorem finiteText_eq (x : Binary32) : ∃ text : String, Spells .float text.toList ∧
    x.finiteText Token.floatStyle = (if x.isNegative then "-" else "") ++ text := by
  by_cases hzero : x.isZero
  · refine ⟨"0.0", ?_, by simp only [Binary32.finiteText, hzero, if_true]⟩
    have hne : ['0'] ≠ [] := by simp
    exact Spells.of_point hne isDigit_zero hne isDigit_zero
  · refine ⟨_, ?_, by simp only [Binary32.finiteText, hzero, Token.floatStyle]; rfl⟩
    exact spells_positionalText Nat.toDigits_ne_nil (isDigit_toDigits _) _

theorem closes_escape (c : Char) {cs : List Char} (h : Closes cs) :
    Closes (Quoted.escape c ++ cs) := by
  unfold Quoted.escape
  split
  · exact .escaped (by decide) h
  · exact .escaped (by decide) h
  · exact .escaped (by decide) h
  · exact .escaped (by decide) h
  · exact .escaped (by decide) h
  · exact .escaped (by decide) h
  · next hquote hback hline _ _ _ => exact .plain hline hquote hback h

theorem closes_escaped (cs : List Char) : Closes (cs.flatMap Quoted.escape ++ ['"']) := by
  induction cs with
  | nil => exact .quote
  | cons c cs ih =>
    rw [List.flatMap_cons, List.append_assoc]
    exact closes_escape c ih

/-! Literals. -/

namespace Expr

variable {N : String → Prop} {A B : Prop}

theorem formed_integer (value : Int) : (literal (.integer value)).Formed N A B := by
  have hpos (n : Nat) : Spells .integer n.repr.toList := by
    rw [← Nat.toString_eq_repr]
    exact spells_natural n
  by_cases h : 0 ≤ value
  · refine .literal rfl ?_
    show Spells .integer (toString value).toList
    rw [Int.toString_eq_repr, Int.repr_eq_if, if_pos h]
    exact hpos _
  · have htext : (Token.integer value).text.toList = '-' :: (-value).toNat.repr.toList := by
      show (toString value).toList = _
      rw [Int.toString_eq_repr, Int.repr_eq_if, if_neg h]
      simp
    exact .signed (.inl rfl) htext (hpos _)

theorem formed_float {value : Binary32} (h : value.isFinite) :
    (literal (.float value)).Formed N A B := by
  obtain ⟨text, hspells, htext⟩ := finiteText_eq value
  have hfinite : (Token.float value).text = value.finiteText Token.floatStyle := by
    show value.text Token.floatStyle = _
    rw [Binary32.text, if_pos h]
  rw [htext] at hfinite
  cases hsign : value.isNegative with
  | false =>
    refine .literal rfl ?_
    show Spells .float (Token.float value).text.toList
    rw [hfinite, hsign]
    simpa using hspells
  | true =>
    have hsigned : (Token.float value).text.toList = '-' :: text.toList := by
      rw [hfinite, hsign]
      simp
    exact .signed (.inr rfl) hsigned hspells

theorem formed_string (value : String) : (literal (.string value)).Formed N A B := by
  refine .literal rfl ?_
  show Spells .string (quote value).toList
  rw [quote, String.toList_ofList]
  exact .string (closes_escaped value.toList)

end Expr

end Lss
