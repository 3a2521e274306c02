import Lss.Binary32.Basic
import Lss.Text.Numeral

/-!
Decimal text of single-precision numbers. Writing takes the fewest digits that read back as the
number, and of those the nearest to it; reading rounds to nearest, ties to the even significand.
-/
namespace Lss.Binary32

/-- The value `digits · 10 ^ exponent`. -/
structure Decimal where
  digits : Nat
  exponent : Int
deriving DecidableEq, Repr

inductive Tie where
  | up
  | even
deriving DecidableEq, Repr

def ratio (p k : Int) : Nat × Nat :=
  (Nat.pow 10 (-k).toNat <<< p.toNat, Nat.pow 10 k.toNat <<< (-p).toNat)

/-- The decimal of scale `k` that lies in the interval of reals rounding to `x` and is nearest to
`x`. The interval is measured in quarters of the last place: it reaches two of them up, and two
down or, just above a power of two, one. Its ends belong to it when the significand is even. -/
def onGrid? (tie : Tie) (x : Binary32) (k : Int) : Option Decimal :=
  let (num, den) := ratio (x.scale - 2) k
  let v := 4 * x.significand * num
  let below := if x.fraction == 0 && 1 < x.exponentField then 1 else 2
  let low := (4 * x.significand - below) * num
  let high := (4 * x.significand + 2) * num
  let closed := x.significand % 2 == 0
  let d := v / den
  let within (n : Nat) : Bool :=
    if closed then low ≤ n * den && n * den ≤ high else low < n * den && n * den < high
  let twice := 2 * v
  let middle := (2 * d + 1) * den
  let preferUpper :=
    middle < twice || (middle == twice && (tie == .up || d % 2 == 1))
  if 0 < d && within d then
    if within (d + 1) && preferUpper then some ⟨d + 1, k⟩ else some ⟨d, k⟩
  else if within (d + 1) then some ⟨d + 1, k⟩
  else none

/-- Trailing zeros of the digits moved into the exponent; no number here has more than nine. -/
def Decimal.strip (d : Decimal) : Decimal :=
  (List.range 9).foldl
    (fun d _ => if d.digits != 0 && d.digits % 10 == 0 then ⟨d.digits / 10, d.exponent + 1⟩ else d)
    d

def leading (x : Binary32) : Int :=
  let reaches (k : Int) : Bool :=
    let (num, den) := ratio x.scale k
    den ≤ x.significand * num
  (((List.range 84).map fun (i : Nat) => (38 : Int) - i).find? reaches).getD (-46)

def shortest (tie : Tie) (x : Binary32) : Decimal :=
  let top := x.leading
  match (List.range 10).findSome? fun (i : Nat) => onGrid? tie x (top - i) with
  | some d => d.strip
  | none => ⟨0, 0⟩

/-- How a decimal is laid out: which exponents of the leading digit are written positionally, and
whether a positive exponent carries a sign. -/
structure Style where
  tie : Tie
  positional : Int → Bool
  signedExponent : Bool

/-- Digits with the point after `point` of them, at least one digit on either side of it. -/
def positionalText (ds : List Char) (point : Int) : String :=
  if point ≤ 0 then
    String.ofList ('0' :: '.' :: List.replicate (-point).toNat '0' ++ ds)
  else
    let p := point.toNat
    if ds.length ≤ p then
      String.ofList (ds ++ List.replicate (p - ds.length) '0' ++ ['.', '0'])
    else String.ofList (ds.take p ++ '.' :: ds.drop p)

def scientificText (style : Style) (ds : List Char) (e : Int) : String :=
  let mantissa :=
    match ds with
    | [] => []
    | [d] => [d]
    | d :: rest => d :: '.' :: rest
  String.ofList (mantissa ++ ['e']) ++
    (if style.signedExponent then Text.signed e else toString e)

def finiteText (style : Style) (x : Binary32) : String :=
  let sign := if x.isNegative then "-" else ""
  if x.isZero then sign ++ "0.0"
  else
    let d := x.shortest style.tie
    let ds := Nat.toDigits 10 d.digits
    let e := d.exponent + ds.length - 1
    sign ++ if style.positional e then positionalText ds (e + 1) else scientificText style ds e

def text (style : Style) (x : Binary32) : String :=
  if x.isFinite then x.finiteText style
  else if x.isNaN then "NaN"
  else if x.isNegative then "-inf"
  else "inf"

/-- The nearest number to `n · 10 ^ e`, or `none` when that is past the largest finite one. -/
def nearest? (negative : Bool) (n : Nat) (e : Int) : Option Binary32 :=
  let size := (Nat.toDigits 10 n).length + e
  if n == 0 || size < -60 then some (ofParts negative 0 0)
  else if 60 < size then none
  else
    let num := n * Nat.pow 10 e.toNat
    let den := Nat.pow 10 (-e).toNat
    let guess : Int := (Nat.log2 num : Int) - Nat.log2 den
    let fits := den <<< guess.toNat ≤ num <<< (-guess).toNat
    let top := if fits then guess else guess - 1
    let q := max (-149) (top - 23)
    let a := num <<< (-q).toNat
    let b := den <<< q.toNat
    let m := a / b
    let r := a % b
    let m := if b < 2 * r || (2 * r == b && m % 2 == 1) then m + 1 else m
    let e := (q + 149).toNat
    if 255 * 0x800000 ≤ e * 0x800000 + m then none else some (ofParts negative e m)

def exponent? : List Char → Option Int
  | [] => some 0
  | c :: cs => if c == 'e' || c == 'E' then Text.integer? cs else none

/-- The number that a decimal text denotes: digits with at most one point among them, at least one
digit in all, and an optional exponent. Other texts and numbers out of range give `none`. -/
def read? (cs : List Char) : Option Binary32 :=
  let negative := cs.head? == some '-'
  let cs := if negative || cs.head? == some '+' then cs.drop 1 else cs
  let whole := cs.takeWhile Char.isDigit
  let cs := cs.dropWhile Char.isDigit
  let (part, cs) :=
    if cs.head? == some '.' then
      ((cs.drop 1).takeWhile Char.isDigit, (cs.drop 1).dropWhile Char.isDigit)
    else ([], cs)
  match Text.digits? (whole ++ part), exponent? cs with
  | some n, some e => nearest? negative n (e - part.length)
  | _, _ => none

/-! What is read is finite. -/

theorem isFinite_ofParts (negative : Bool) {e n : Nat} (h : e * 0x800000 + n < 255 * 0x800000) :
    (ofParts negative e n).isFinite := by
  have hbits : (e * 0x800000 + n + if negative then 0x80000000 else 0) < UInt32.size := by
    cases negative <;> simp only [UInt32.size] <;> grind
  unfold isFinite exponentField magnitude ofParts
  rw [UInt32.toNat_ofNat_of_lt' hbits]
  cases negative
  · simp only [Bool.false_eq_true, if_false, bne_iff_ne]
    omega
  · simp only [if_true, bne_iff_ne]
    omega

theorem isFinite_of_inRange {negative : Bool} {e n : Nat} {x : Binary32}
    (h : (if 255 * 0x800000 ≤ e * 0x800000 + n then none else some (ofParts negative e n))
      = some x) :
    x.isFinite := by
  split at h
  · cases h
  · next hlt =>
    cases h
    exact isFinite_ofParts negative (Nat.lt_of_not_le hlt)

theorem isFinite_of_nearest? {negative : Bool} {n : Nat} {e : Int} {x : Binary32}
    (h : nearest? negative n e = some x) : x.isFinite := by
  unfold nearest? at h
  dsimp only at h
  split at h
  · cases h
    exact isFinite_ofParts negative (by decide)
  · split at h
    · cases h
    · exact isFinite_of_inRange h

theorem isFinite_of_read? {cs : List Char} {x : Binary32} (h : read? cs = some x) : x.isFinite := by
  unfold read? at h
  dsimp only at h
  split at h
  · exact isFinite_of_nearest? h
  · cases h

end Lss.Binary32
