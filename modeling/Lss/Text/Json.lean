import Lss.Text.Numeral

/-!
JSON documents and their indented text: two spaces a level, members in the order given.
-/
namespace Lss

inductive Json where
  | null
  | boolean (value : Bool)
  /-- A number, by its text. -/
  | number (text : String)
  | string (value : String)
  | array (items : List Json)
  | object (members : List (String × Json))
deriving Inhabited

namespace Json

def nat (n : Nat) : Json := .number (toString n)

def int (n : Int) : Json := .number (toString n)

def orNull : Option Json → Json
  | some j => j
  | none => .null

/-! Parts of a document. -/

def member? (key : String) : Json → Option Json
  | .object members => (members.find? (·.1 == key)).map (·.2)
  | _ => none

def items? : Json → Option (List Json)
  | .array items => some items
  | _ => none

def string? : Json → Option String
  | .string s => some s
  | _ => none

def int? : Json → Option Int
  | .number text => Text.integer? text.toList
  | _ => none

def natBelow? (bound : Nat) (j : Json) : Option Nat :=
  j.int?.bind fun n => if 0 ≤ n ∧ n < bound then some n.toNat else none

def byte? (j : Json) : Option UInt8 := (j.natBelow? 256).map UInt8.ofNat

def word? (j : Json) : Option UInt16 := (j.natBelow? 65536).map UInt16.ofNat

def signed? (bits : Nat) (j : Json) : Option Int :=
  let half : Int := (1 <<< (bits - 1) : Nat)
  j.int?.bind fun n => if -half ≤ n ∧ n < half then some n else none

def itemsOf? {α : Type} (f : Json → Option α) (j : Json) : Option (List α) :=
  j.items?.bind (·.mapM f)

/-! Text. -/

def escapeChar (c : Char) : String :=
  match c with
  | '"' => "\\\""
  | '\\' => "\\\\"
  | '\n' => "\\n"
  | '\r' => "\\r"
  | '\t' => "\\t"
  | '\x08' => "\\b"
  | '\x0c' => "\\f"
  | c =>
    if c.toNat < 0x20 then "\\u" ++ Text.padLeft '0' 4 (Text.hex c.toNat) else c.toString

def quoted (s : String) : String :=
  s.toList.foldl (fun out c => out ++ escapeChar c) "\"" ++ "\""

def newline (level : Nat) : String := "\n" ++ String.ofList (List.replicate (2 * level) ' ')

mutual

def render (out : String) (level : Nat) : Json → String
  | .null => out ++ "null"
  | .boolean value => out ++ (if value then "true" else "false")
  | .number text => out ++ text
  | .string value => out ++ quoted value
  | .array [] => out ++ "[]"
  | .array (item :: items) =>
    renderItems (render (out ++ "[" ++ newline (level + 1)) (level + 1) item) (level + 1) items
      ++ newline level ++ "]"
  | .object [] => out ++ "\x7b\x7d"
  | .object ((key, value) :: members) =>
    renderMembers
        (render (out ++ "\x7b" ++ newline (level + 1) ++ quoted key ++ ": ") (level + 1) value)
        (level + 1) members
      ++ newline level ++ "\x7d"

def renderItems (out : String) (level : Nat) : List Json → String
  | [] => out
  | item :: items => renderItems (render (out ++ "," ++ newline level) level item) level items

def renderMembers (out : String) (level : Nat) : List (String × Json) → String
  | [] => out
  | (key, value) :: members =>
    renderMembers (render (out ++ "," ++ newline level ++ quoted key ++ ": ") level value) level
      members

end

def text (j : Json) : String := j.render "" 0

end Json

end Lss
