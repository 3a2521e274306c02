import Mathlib.Algebra.Group.Int.Defs
import Lss.Code.Instruction
import Lss.Proofs.Literals

/-!
# Integers of source text

Digits behind any number of minus signs. The parser takes the signs into the text of the literal,
one after another, and what is left of them is the sign of the value. The code of a value is the
shortest instruction that carries it.
-/
namespace Lss

/-! Digits behind minus signs. -/

structure Numeral where
  signs : Nat
  digits : List Char
  ne_nil : digits ≠ []
  isDigit : ∀ d ∈ digits, d.isDigit

namespace Numeral

def text (n : Numeral) : String := String.ofList (List.replicate n.signs '-' ++ n.digits)

def value (n : Numeral) : Int := (-1) ^ n.signs * Nat.ofDigitChars 10 n.digits 0

def ofInt (v : Int) : Numeral where
  signs := if v < 0 then 1 else 0
  digits := Nat.toDigits 10 v.natAbs
  ne_nil := Nat.toDigits_ne_nil
  isDigit := isDigit_toDigits v.natAbs

theorem text_ofInt (v : Int) : (ofInt v).text = toString v := by
  rw [Int.toString_eq_repr, Int.repr_eq_if]
  by_cases h : v < 0
  · obtain ⟨n, rfl⟩ := Int.eq_negSucc_of_lt_zero h
    rw [if_neg (Int.not_le.mpr h)]
    simp [text, ofInt, ← String.toList_inj]
  · obtain ⟨n, rfl⟩ := Int.eq_ofNat_of_zero_le (Int.not_lt.mp h)
    rw [if_pos (Int.not_lt.mp h)]
    simp [text, ofInt, ← String.toList_inj]

theorem value_ofInt (v : Int) : (ofInt v).value = v := by
  have hdigits : Nat.ofDigitChars 10 (ofInt v).digits 0 = v.natAbs := Nat.ofDigitChars_ten_toDigits
  rw [value, hdigits]
  by_cases h : v < 0
  · rw [show (ofInt v).signs = 1 from if_pos h]
    omega
  · rw [show (ofInt v).signs = 0 from if_neg h]
    omega

end Numeral

namespace Text

variable {ds : List Char}

theorem digits?_eq (hne : ds ≠ []) (h : ∀ d ∈ ds, d.isDigit) :
    digits? ds = some (Nat.ofDigitChars 10 ds 0) := by
  have hempty : ds.isEmpty = false := by simpa using hne
  have hall : ds.all Char.isDigit := List.all_eq_true.mpr h
  rw [digits?, hempty, hall, Nat.ofDigitChars_eq_foldl]
  rfl

theorem head_ne_of_isDigit {c : Char} (hc : c.isDigit = false) (h : ∀ d ∈ ds, d.isDigit) :
    ds.head? ≠ some c := by
  intro heq
  have := h c (List.mem_of_head? heq)
  rw [hc] at this
  cases this

theorem integer?_digits (hne : ds ≠ []) (h : ∀ d ∈ ds, d.isDigit) :
    integer? ds = some (Nat.ofDigitChars 10 ds 0 : Int) := by
  have hminus := head_ne_of_isDigit (c := '-') rfl h
  have hplus := head_ne_of_isDigit (c := '+') rfl h
  unfold integer?
  split
  · exact absurd rfl hminus
  · exact absurd rfl hplus
  · rw [digits?_eq hne h]
    rfl

theorem integer?_minus (hne : ds ≠ []) (h : ∀ d ∈ ds, d.isDigit) :
    integer? ('-' :: ds) = some (-(Nat.ofDigitChars 10 ds 0 : Int)) := by
  rw [integer?, digits?_eq hne h]
  rfl

end Text

/-! Signs that become part of the literal. -/

namespace Numeral

variable (n : Numeral)

theorem head_digits : n.digits.head? ≠ some '-' := Text.head_ne_of_isDigit rfl n.isDigit

/-- The text of the literal, once `k` signs in front of the digits are part of it. -/
def folded : Nat → String
  | 0 => String.ofList n.digits
  | k + 1 => Parser.negateText (folded k)

/-- Two signs take each other away. -/
theorem folded_cases (k : Nat) :
    ((n.folded k).toList = n.digits ∧ (-1 : Int) ^ k = 1) ∨
      ((n.folded k).toList = '-' :: n.digits ∧ (-1 : Int) ^ k = -1) := by
  induction k with
  | zero => exact .inl ⟨String.toList_ofList, rfl⟩
  | succ k ih =>
    rw [folded, Parser.negateText, Int.pow_succ]
    rcases ih with ⟨htext, hsign⟩ | ⟨htext, hsign⟩
    · refine .inr ⟨?_, by rw [hsign]; rfl⟩
      rw [htext]
      split
      · next cs hcs => exact absurd (by rw [hcs]; rfl) n.head_digits
      · exact String.toList_ofList
    · refine .inl ⟨?_, by rw [hsign]; rfl⟩
      rw [htext]
      exact String.toList_ofList

theorem integer?_folded : Text.integer? (n.folded n.signs).toList = some n.value := by
  rw [value]
  rcases n.folded_cases n.signs with ⟨htext, hsign⟩ | ⟨htext, hsign⟩
  · rw [htext, hsign, Int.one_mul]
    exact Text.integer?_digits n.ne_nil n.isDigit
  · rw [htext, hsign, Int.neg_one_mul]
    exact Text.integer?_minus n.ne_nil n.isDigit

def token : Token := .synthetic .integer (String.ofList n.digits)

theorem spelled_token : n.token.Spelled := by
  rw [Token.Spelled, token, Token.synthetic, String.toList_ofList]
  exact .of_digits n.ne_nil n.isDigit

def tree : Nat → Expr
  | 0 => .literal n.token
  | k + 1 => .unary (.of (.binary .sub)) (tree k) true

theorem formed_tree {N : String → Prop} {A : Prop} (k : Nat) : (n.tree k).Formed N A False := by
  have hsub : (Token.of (.binary .sub)).Spelled := .mark rfl rfl
  induction k with
  | zero => exact .literal rfl n.spelled_token
  | succ k ih =>
    refine .unary rfl hsub ?_ (fun h => h.elim) ih
    cases k with
    | zero =>
      rw [tree, Expr.power]
      split <;> omega
    | succ k => exact Nat.le_refl 12

theorem folded_tree (k : Nat) :
    (n.tree k).folded = .literal (.synthetic .integer (n.folded k)) := by
  induction k with
  | zero => rfl
  | succ k ih =>
    rw [tree, Expr.folded, ih, folded]
    rfl

theorem text_tree (k : Nat) :
    (n.tree k).text = String.ofList (List.replicate k '-' ++ n.digits) := by
  induction k with
  | zero => rfl
  | succ k ih =>
    rw [tree, Expr.text, ih, ← String.toList_inj]
    simp [Token.of, Token.synthetic, TokenKind.lexeme?, BinaryOp.text, List.replicate_succ]

theorem text_tree_signs : (n.tree n.signs).text = n.text := n.text_tree n.signs

end Numeral

/-! The instruction for a value. -/

namespace Instruction

/-- The integer that a push carries. -/
def integer? : Instruction → Option Int
  | .pushZero => some 0
  | .pushInt8 v => some v.toInt
  | .pushInt16 v => some v.toInt
  | .pushInt32 v => some v.toInt
  | _ => none

structure Narrowest (i : Instruction) (v : Int) : Prop where
  carries : i.integer? = some v
  shortest : ∀ j, j.integer? = some v → j ≠ i → i.size < j.size

def Fits32 (v : Int) : Prop := -2 ^ 31 ≤ v ∧ v < 2 ^ 31

instance (v : Int) : Decidable (Fits32 v) := inferInstanceAs (Decidable (_ ∧ _))

theorem pushInteger?_isSome {v : Int} : (pushInteger? v).isSome ↔ Fits32 v := by
  unfold pushInteger? Fits32
  split
  · simp; omega
  · split
    · simp; omega
    · split
      · simp; omega
      · split <;> simp <;> omega

@[simp] theorem size_pushZero : pushZero.size = 1 := rfl

@[simp] theorem size_pushInt8 (x : Int8) : (pushInt8 x).size = 2 := rfl

@[simp] theorem size_pushInt16 (x : Int16) : (pushInt16 x).size = 3 := rfl

@[simp] theorem size_pushInt32 (x : Int32) : (pushInt32 x).size = 5 := rfl

theorem narrowest_zero : Narrowest .pushZero 0 := by
  refine ⟨rfl, fun j hj hne => ?_⟩
  cases j with
  | pushZero => exact absurd rfl hne
  | pushInt8 | pushInt16 | pushInt32 => simp
  | _ => cases hj

theorem narrowest_int8 {x : Int8} (h : x ≠ 0) : Narrowest (.pushInt8 x) x.toInt := by
  refine ⟨rfl, fun j hj hne => ?_⟩
  have hzero : x.toInt ≠ 0 := fun heq => h (Int8.toInt_inj.mp heq)
  cases j with
  | pushZero => exact absurd (Option.some.inj hj).symm hzero
  | pushInt8 y => exact absurd (by rw [Int8.toInt_inj.mp (Option.some.inj hj)]) hne
  | pushInt16 | pushInt32 => simp
  | _ => cases hj

theorem narrowest_int16 {x : Int16} (h : ¬ (-0x80 ≤ x.toInt ∧ x.toInt < 0x80)) :
    Narrowest (.pushInt16 x) x.toInt := by
  refine ⟨rfl, fun j hj hne => ?_⟩
  cases j with
  | pushZero =>
    have := Option.some.inj hj
    omega
  | pushInt8 y =>
    have hy := Option.some.inj hj
    have hle := y.le_toInt
    have hlt := y.toInt_lt
    omega
  | pushInt16 y => exact absurd (by rw [Int16.toInt_inj.mp (Option.some.inj hj)]) hne
  | pushInt32 => simp
  | _ => cases hj

theorem narrowest_int32 {x : Int32} (h : ¬ (-0x8000 ≤ x.toInt ∧ x.toInt < 0x8000)) :
    Narrowest (.pushInt32 x) x.toInt := by
  refine ⟨rfl, fun j hj hne => ?_⟩
  cases j with
  | pushZero =>
    have := Option.some.inj hj
    omega
  | pushInt8 y =>
    have hy := Option.some.inj hj
    have hle := y.le_toInt
    have hlt := y.toInt_lt
    omega
  | pushInt16 y =>
    have hy := Option.some.inj hj
    have hle := y.le_toInt
    have hlt := y.toInt_lt
    omega
  | pushInt32 y => exact absurd (by rw [Int32.toInt_inj.mp (Option.some.inj hj)]) hne
  | _ => cases hj

/-- The push of a value is the shortest there is. -/
theorem narrowest_of_pushInteger? {v : Int} {i : Instruction} (h : pushInteger? v = some i) :
    i.Narrowest v := by
  unfold pushInteger? at h
  split at h
  · next hzero =>
    cases h
    rw [hzero]
    exact narrowest_zero
  · next hzero =>
    split at h
    · next hrange =>
      cases h
      have hv : (Int8.ofInt v).toInt = v := Int8.toInt_ofInt_of_le hrange.1 hrange.2
      have := narrowest_int8 (x := .ofInt v) (by rintro heq; rw [heq] at hv; exact hzero hv.symm)
      rwa [hv] at this
    · next hbyte =>
      split at h
      · next hrange =>
        cases h
        have hv : (Int16.ofInt v).toInt = v := Int16.toInt_ofInt_of_le hrange.1 hrange.2
        have := narrowest_int16 (x := .ofInt v) (by rwa [hv])
        rwa [hv] at this
      · next hshort =>
        split at h
        · next hrange =>
          cases h
          have hv : (Int32.ofInt v).toInt = v := Int32.toInt_ofInt_of_le hrange.1 hrange.2
          have := narrowest_int32 (x := .ofInt v) (by rwa [hv])
          rwa [hv] at this
        · cases h

/-- No other instruction is as short. -/
theorem Narrowest.unique {i j : Instruction} {v : Int} (hi : i.Narrowest v)
    (hj : j.Narrowest v) : i = j := by
  refine Decidable.byContradiction fun hne => ?_
  have hlt := hi.shortest j hj.carries (Ne.symm hne)
  have hgt := hj.shortest i hi.carries hne
  omega

end Instruction

end Lss
