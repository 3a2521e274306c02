import Lss.Container.Codec
import Lss.Lifting.Unit
import Lss.Lowering.Session
import Lss.Tree.Printer

/-!
Rounds from text to text: a source is compiled, its container is written and read back, and that is
decompiled and printed.
-/
namespace Lss

inductive Round where
  | rejected (found : List Diagnostic)
  | unwritable (error : FormatError)
  | finished (found : List Diagnostic) (result : Decompilation) (source text : String)

namespace Round

def ofSource (settings : Settings) (indent source : String) : Round :=
  let r := Container.compileSource settings source none
  match r.container with
  | none => .rejected r.diagnostics
  | some c =>
    match c.encode.bind Container.decode with
    | .error e => .unwritable e
    | .ok c => .finished r.diagnostics c.decompile source (c.decompile.unit.text indent)

/-- So many rounds at most, each over the text of the one before. -/
def chain (settings : Settings) (indent source : String) : Nat → List Round
  | 0 => []
  | n + 1 =>
    match ofSource settings indent source with
    | .finished found result source text =>
      .finished found result source text :: chain settings indent text n
    | r => [r]

end Round

end Lss
