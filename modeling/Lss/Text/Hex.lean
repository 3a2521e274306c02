/-!
Bytes as text of base 16, two small digits a byte.
-/
namespace Lss.Text

def hexDigit? (c : Char) : Option Nat :=
  if c.isDigit then some (c.toNat - '0'.toNat)
  else if 'a' ≤ c && c ≤ 'f' then some (c.toNat - 'a'.toNat + 10)
  else if 'A' ≤ c && c ≤ 'F' then some (c.toNat - 'A'.toNat + 10)
  else none

/-- The value of digits in a base up to 16, or `none` when there is none or one is too large. -/
def digitsIn? (base : Nat) (cs : List Char) : Option Nat :=
  let add (n : Option Nat) (c : Char) : Option Nat := do
    let d ← hexDigit? c
    if d < base then return base * (← n) + d else none
  if cs.isEmpty then none else cs.foldl add (some 0)

def hexOfBytes (bytes : List UInt8) : String :=
  bytes.foldl
    (fun out b => (out.push (Nat.digitChar (b.toNat / 16))).push (Nat.digitChar (b.toNat % 16))) ""

def bytesOnto (acc : List UInt8) : List Char → Option (List UInt8)
  | [] => some acc.reverse
  | [_] => none
  | a :: b :: cs =>
    match hexDigit? a, hexDigit? b with
    | some x, some y => bytesOnto (UInt8.ofNat (16 * x + y) :: acc) cs
    | _, _ => none

def bytesOfHex? (text : String) : Option (List UInt8) := bytesOnto [] text.toList

end Lss.Text
