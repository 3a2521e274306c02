import Lss.Text.Numeral

/-!
Command lines. Options may stand before and after the words they belong to, and a value follows its
option as the next word or behind an equals sign.
-/
namespace Lss

inductive Action where
  | version
  | compile (inputs : List String) (output : String) (lineNumbers : Bool)
  | decompile (input : String) (outDir : Option String) (indent : Option Nat)
  | dump (input : String) (json : Bool)
  | check (inputs : List String)
deriving DecidableEq, Repr

structure Invocation where
  config : Option String := none
  action : Action
deriving DecidableEq, Repr

namespace Invocation

/-- Words and options met so far; words latest first. -/
structure Words where
  words : List String := []
  config : Option String := none
  output : Option String := none
  outDir : Option String := none
  indent : Option Nat := none
  lineNumbers : Bool := false
  json : Bool := false
  version : Bool := false

def Words.set? (w : Words) (option value : String) : Option Words :=
  match option with
  | "--config" => some { w with config := some value }
  | "--output" | "-o" => some { w with output := some value }
  | "--out-dir" => some { w with outDir := some value }
  | "--indent" => (Text.natural? value.toList).map fun n => { w with indent := some n }
  | _ => none

def Words.flag? (w : Words) (option : String) : Option Words :=
  match option with
  | "--line-numbers" => some { w with lineNumbers := true }
  | "--json" => some { w with json := true }
  | "--version" | "-V" => some { w with version := true }
  | _ => none

def joined? (word : String) : Option (String × String) :=
  let cs := word.toList
  match cs.dropWhile (· != '=') with
  | _ :: value => some (String.ofList (cs.takeWhile (· != '=')), String.ofList value)
  | [] => none

/-- Sorts words and options; `none` where there is an option that means nothing. -/
def sort (w : Words) : List String → Option Words
  | [] => some w
  | "--" :: rest => some { w with words := rest.reverse ++ w.words }
  | word :: rest =>
    if word.toList.head? ≠ some '-' ∨ word = "-" then sort { w with words := word :: w.words } rest
    else
      match w.flag? word with
      | some w => sort w rest
      | none =>
        match joined? word with
        | some (option, value) => (w.set? option value).bind (sort · rest)
        | none =>
          match rest with
          | value :: rest => (w.set? word value).bind (sort · rest)
          | [] => none

def ofArguments (arguments : List String) : Option Invocation := do
  let w ← sort {} arguments
  if w.version then return ⟨w.config, .version⟩
  match w.words.reverse with
  | "compile" :: input :: inputs =>
    return ⟨w.config, .compile (input :: inputs) (w.output.getD "out.osi") w.lineNumbers⟩
  | ["decompile", input] => return ⟨w.config, .decompile input w.outDir w.indent⟩
  | ["dump", input] => return ⟨w.config, .dump input w.json⟩
  | "check" :: input :: inputs => return ⟨w.config, .check (input :: inputs)⟩
  | _ => none

end Invocation

end Lss
