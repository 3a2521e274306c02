/-!
Single-precision numbers, held as their bit patterns: one sign bit, eight exponent bits, 23
fraction bits. A finite number is `± significand · 2 ^ scale`.
-/
namespace Lss

structure Binary32 where
  bits : UInt32
deriving DecidableEq, Repr, Inhabited

namespace Binary32

def isNegative (x : Binary32) : Bool := 0x80000000 ≤ x.bits.toNat

def magnitude (x : Binary32) : Nat := x.bits.toNat % 0x80000000

def exponentField (x : Binary32) : Nat := x.magnitude / 0x800000

def fraction (x : Binary32) : Nat := x.magnitude % 0x800000

def isFinite (x : Binary32) : Bool := x.exponentField != 255

def isNaN (x : Binary32) : Bool := x.exponentField == 255 && x.fraction != 0

def isZero (x : Binary32) : Bool := x.magnitude == 0

def significand (x : Binary32) : Nat :=
  if x.exponentField == 0 then x.fraction else x.fraction + 0x800000

def scale (x : Binary32) : Int :=
  if x.exponentField == 0 then -149 else (x.exponentField : Int) - 150

/-- Numeric equality: the two zeros agree, and a NaN agrees with nothing. -/
def agrees (x y : Binary32) : Bool :=
  !x.isNaN && !y.isNaN && (x.bits == y.bits || (x.isZero && y.isZero))

/-- The number `± n · 2 ^ (e - 149)`; the carry out of the fraction moves into the exponent. -/
def ofParts (negative : Bool) (e n : Nat) : Binary32 :=
  ⟨UInt32.ofNat (e * 0x800000 + n + if negative then 0x80000000 else 0)⟩

end Binary32

end Lss
