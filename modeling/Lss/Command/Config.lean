import Lss.Lowering.Expr
import Lss.Text.Hex
import Lss.Text.Numeral

/-!
Configuration files: lines of `[table]` or `key = value`. Tables and keys that mean nothing here
are passed over.
-/
namespace Lss

structure Config where
  compiler : Settings := {}
  indent : Nat := 4
  outDir : Option String := none
deriving DecidableEq, Repr

namespace Config

inductive Value where
  | integer (n : Int)
  | boolean (b : Bool)
  | text (s : String)
deriving DecidableEq, Repr

/-- The number that four or eight digits of base 16 after `\u` or `\U` denote, as a character. -/
def escaped? (digits : List Char) : Option Char :=
  (Text.digitsIn? 16 digits).bind fun n => if n.isValidChar then some (Char.ofNat n) else none

/-- A quoted text up to its closing quote, which must come last. `acc` holds what was read, in
reverse. -/
def quoted? (acc : List Char) : List Char → Option String
  | ['"'] => some (String.ofList acc.reverse)
  | '\\' :: 'n' :: cs => quoted? ('\n' :: acc) cs
  | '\\' :: 't' :: cs => quoted? ('\t' :: acc) cs
  | '\\' :: 'r' :: cs => quoted? ('\r' :: acc) cs
  | '\\' :: 'b' :: cs => quoted? ('\x08' :: acc) cs
  | '\\' :: 'f' :: cs => quoted? ('\x0c' :: acc) cs
  | '\\' :: '"' :: cs => quoted? ('"' :: acc) cs
  | '\\' :: '\\' :: cs => quoted? ('\\' :: acc) cs
  | '\\' :: 'u' :: a :: b :: c :: d :: cs =>
    (escaped? [a, b, c, d]).bind fun x => quoted? (x :: acc) cs
  | '\\' :: 'U' :: a :: b :: c :: d :: e :: f :: g :: h :: cs =>
    (escaped? [a, b, c, d, e, f, g, h]).bind fun x => quoted? (x :: acc) cs
  | c :: cs => if c = '"' ∨ c = '\\' then none else quoted? (c :: acc) cs
  | [] => none

/-- A whole number, where `_` may part the digits: with a sign if need be, or in base 16, 8 or 2. -/
def integer? (cs : List Char) : Option Int :=
  match cs.filter (· != '_') with
  | '0' :: 'x' :: cs => (Text.digitsIn? 16 cs).map Int.ofNat
  | '0' :: 'o' :: cs => (Text.digitsIn? 8 cs).map Int.ofNat
  | '0' :: 'b' :: cs => (Text.digitsIn? 2 cs).map Int.ofNat
  | cs => Text.integer? cs

def value? (cs : List Char) : Option Value :=
  match cs with
  | '"' :: cs => (quoted? [] cs).map .text
  | cs =>
    if cs = "true".toList then some (.boolean true)
    else if cs = "false".toList then some (.boolean false)
    else (integer? cs).map .integer

def set (c : Config) (table key : String) (v : Value) : Option Config :=
  let word (n : Int) : Option UInt16 :=
    if 0 ≤ n ∧ n < 65536 then some (UInt16.ofNat n.toNat) else none
  match table, key, v with
  | "compiler", "version_major", .integer n =>
    (word n).map fun w => { c with compiler := { c.compiler with major := w } }
  | "compiler", "version_minor", .integer n =>
    (word n).map fun w => { c with compiler := { c.compiler with minor := w } }
  | "compiler", "emit_line_numbers", .boolean b =>
    some { c with compiler := { c.compiler with lineNumbers := b } }
  | "decompiler", "indent", .integer n => if 0 ≤ n then some { c with indent := n.toNat } else none
  | "decompiler", "out_dir", .text s => some { c with outDir := some s }
  | "compiler", "version_major", _ | "compiler", "version_minor", _
  | "compiler", "emit_line_numbers", _ | "decompiler", "indent", _
  | "decompiler", "out_dir", _ => none
  | _, _, _ => some c

def trim (cs : List Char) : List Char :=
  let blank (c : Char) : Bool := c == ' ' || c == '\t' || c == '\r'
  ((cs.dropWhile blank).reverse.dropWhile blank).reverse

def bare (cs : List Char) : String :=
  let cs := trim cs
  match cs with
  | '"' :: rest => (quoted? [] rest).getD (String.ofList cs)
  | _ => String.ofList cs

/-- Reads lines after a table's header; fails with the first line that makes no sense. -/
def readLines (c : Config) (table : String) : List String → Except String Config
  | [] => .ok c
  | line :: lines =>
    match trim line.toList with
    | [] => readLines c table lines
    | '#' :: _ => readLines c table lines
    | '[' :: rest =>
      if rest.getLast? = some ']' then readLines c (bare rest.dropLast) lines else .error line
    | cs =>
      match cs.dropWhile (· != '=') with
      | [] => .error line
      | _ :: text =>
        match value? (trim text) with
        | none => .error line
        | some v =>
          match c.set table (bare (cs.takeWhile (· != '='))) v with
          | some c => readLines c table lines
          | none => .error line

/-- The configuration that a text spells, or its first line that spells nothing. -/
def ofText (text : String) : Except String Config := readLines {} "" (text.splitOn "\n")

/-- The names under which a configuration is looked for in a directory, in order. -/
def fileNames : List String := ["lss.toml", ".lssrc.toml"]

end Config

end Lss
