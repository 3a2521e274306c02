/-!
Regions of a source text. Offsets and lengths count bytes of the UTF-8 form, lines start at 1,
and line 0 marks a synthetic region, one that no text stands behind.
-/
namespace Lss

structure Span where
  file : Option String := none
  start : Nat := 0
  line : Nat := 0
  length : Nat := 0
deriving DecidableEq, Repr, Inhabited

namespace Span

def synthetic : Span := {}

def stop (s : Span) : Nat := s.start + s.length

def isSynthetic (s : Span) : Bool := s.line == 0

/-- The least region that covers both; a synthetic one adds nothing. -/
def cover (a b : Span) : Span :=
  if b.isSynthetic then a
  else if a.isSynthetic then b
  else if a.start ≤ b.start then { a with length := max a.stop b.stop - a.start }
  else { b with length := max b.stop a.stop - b.start }

instance : Add Span := ⟨cover⟩

def text (s : Span) : String :=
  match s.file with
  | some file => file ++ ":" ++ toString s.line
  | none => "line " ++ toString s.line

@[simp] theorem add_synthetic (a : Span) : a + synthetic = a := rfl

end Span

end Lss
