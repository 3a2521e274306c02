/-!
Numerals and padding, as the listings and messages write them.
-/
namespace Lss.Text

/-- `s` moved to the right end of a field of `width` characters filled with `fill`. -/
def padLeft (fill : Char) (width : Nat) (s : String) : String :=
  String.ofList (List.replicate (width - s.length) fill) ++ s

/-- Base 16 with small letters and no leading zero. -/
def hex (n : Nat) : String := String.ofList (Nat.toDigits 16 n)

def hexByte (b : UInt8) : String :=
  padLeft '0' 2 (String.ofList ((Nat.toDigits 16 b.toNat).map Char.toUpper))

def signed (n : Int) : String := if n < 0 then toString n else "+" ++ toString n

/-- The value of a decimal digit string, or `none` when it is empty or holds anything else. -/
def digits? (cs : List Char) : Option Nat :=
  if cs.isEmpty || !cs.all Char.isDigit then none
  else some (cs.foldl (fun n c => 10 * n + (c.toNat - '0'.toNat)) 0)

/-- An optional plus sign and at least one digit. -/
def natural? : List Char → Option Nat
  | '+' :: cs => digits? cs
  | cs => digits? cs

/-- An optional sign and at least one digit. -/
def integer? : List Char → Option Int
  | '-' :: cs => (digits? cs).map fun n => -(n : Int)
  | '+' :: cs => (digits? cs).map fun n => (n : Int)
  | cs => (digits? cs).map fun n => (n : Int)

end Lss.Text
