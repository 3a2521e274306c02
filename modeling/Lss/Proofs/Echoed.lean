import Lss.Proofs.Denoted
import Lss.Proofs.ComparedBody
import Lss.Proofs.Vocabulary

/-!
# Lowering from fewer names

What a body is lowered to depends on the names that others have left in the tables in one way only:
there may be no room for more. Where there is room, lowering from tables with fewer names comes to
the same, be it an error or code with other numbers for its names.
-/
namespace Lss

def Code.SameForm (a b : Code) : Prop := a.map Instruction.form = b.map Instruction.form

namespace Code.SameForm

variable {a b c d : Code} {i j : Instruction}

theorem refl (a : Code) : SameForm a a := rfl

theorem append (h : SameForm a b) (k : SameForm c d) : SameForm (a ++ c) (b ++ d) := by
  rw [SameForm, List.map_append, List.map_append, h, k]

theorem one (h : i.form = j.form) : SameForm [i] [j] := congrArg (fun x => [x]) h

theorem size_eq (h : SameForm a b) : a.size = b.size := by
  have hsize (code : Code) : Code.size (code.map Instruction.form) = code.size := by
    induction code with
    | nil => rfl
    | cons i code ih => rw [List.map_cons, size_cons, size_cons, Instruction.size_form, ih]
  rw [← hsize a, h, hsize b]

end Code.SameForm

namespace Lower

variable {α β γ δ : Type} {p q : Pool}

structure Covers (p q : Pool) : Prop where
  left : p.Sound
  right : q.Sound
  names : q.Within p.vocabulary

def overflow : CompileError := .format .tableFull

/-- What runs from many names and from few came to. Unless the first one found a table full, both
failed with one error, or both gave results that are as `R` says. -/
inductive Agree (R : α → β → Prop) :
    Except CompileError α × Pool → Except CompileError β × Pool → Prop
  | overflow {p : Pool} {y : Except CompileError β × Pool} : Agree R (.error overflow, p) y
  | error {e : CompileError} {p q : Pool} : Covers p q → Agree R (.error e, p) (.error e, q)
  | ok {a : α} {b : β} {p q : Pool} : Covers p q → R a b → Agree R (.ok a, p) (.ok b, q)

def Echoes (f : Lower α) (g : Lower β) (R : α → β → Prop) : Prop :=
  ∀ p q : Pool, Covers p q → Agree R (f.run.run p) (g.run.run q)

namespace Echoes

variable {R : α → β → Prop} {S : γ → δ → Prop} {f : Lower α} {g : Lower β}

theorem pure {a : α} {b : β} (h : R a b) : Echoes (pure a) (pure b) R := fun _ _ hpq => .ok hpq h

theorem throw (e : CompileError) : Echoes (throw e : Lower α) (throw e : Lower β) R :=
  fun _ _ hpq => .error hpq

theorem bind {k : α → Lower γ} {l : β → Lower δ} (h : Echoes f g R)
    (hk : ∀ a b, R a b → Echoes (k a) (l b) S) : Echoes (f >>= k) (g >>= l) S := by
  intro p q hpq
  have hfirst := h p q hpq
  rw [run_bind, run_bind]
  generalize f.run.run p = x, g.run.run q = y at hfirst
  cases hfirst with
  | overflow => exact .overflow
  | error hcovers => exact .error hcovers
  | ok hcovers hr => exact hk _ _ hr _ _ hcovers

/-- Names that find room among many find room among few. -/
theorem intern {t u : NameTable} (ht : t.Sound) (hu : u.Sound) (hnames : u.names ⊆ t.names)
    {name : String} {i : UInt16} {t' : NameTable} (hi : t.intern name = (.ok i, t')) :
    ∃ j u', u.intern name = (.ok j, u') ∧ t'.Sound ∧ u'.Sound ∧ u'.names ⊆ t'.names := by
  have hleft := ht.interned hi
  have hsub := hnames.trans hleft.extends_.names_subset
  obtain ⟨j, u', hj⟩ := hu.intern_isOk
    (by rw [hleft.sound.card_names]; exact hleft.sound.fits) hsub hleft.mem
  have hright := hu.interned hj
  exact ⟨j, u', hj, hleft.sound, hright.sound, hright.subset hsub hleft.mem⟩

theorem intern_error {t : NameTable} {name : String} {e : FormatError} {t' : NameTable}
    (hi : t.intern name = (.error e, t')) : e = .tableFull := by
  unfold NameTable.intern at hi
  split at hi
  · cases hi
  · split at hi <;> cases hi
    rfl

theorem symbol (name : String) :
    Echoes (symbol name) (symbol name) fun _ _ => True := by
  rintro ⟨strings, symbols, warnings⟩ ⟨strings', symbols', warnings'⟩ hpq
  show Agree _ (Lower.symbol name ⟨strings, symbols, warnings⟩)
    (Lower.symbol name ⟨strings', symbols', warnings'⟩)
  simp only [Lower.symbol]
  rcases hi : symbols.intern name with ⟨e | i, t⟩
  · cases intern_error hi
    exact .overflow
  · obtain ⟨j, u, hj, ht, hu, hnames⟩ := intern hpq.left.symbols hpq.right.symbols
      hpq.names.symbols hi
    rw [hj]
    exact .ok ⟨⟨hpq.left.strings, ht⟩, ⟨hpq.right.strings, hu⟩, ⟨hpq.names.strings, hnames⟩⟩
      trivial

theorem string (value : String) :
    Echoes (string value) (string value) fun _ _ => True := by
  rintro ⟨strings, symbols, warnings⟩ ⟨strings', symbols', warnings'⟩ hpq
  show Agree _ (Lower.string value ⟨strings, symbols, warnings⟩)
    (Lower.string value ⟨strings', symbols', warnings'⟩)
  simp only [Lower.string]
  rcases hi : strings.intern value with ⟨e | i, t⟩
  · cases intern_error hi
    exact .overflow
  · obtain ⟨j, u, hj, ht, hu, hnames⟩ := intern hpq.left.strings hpq.right.strings
      hpq.names.strings hi
    rw [hj]
    exact .ok ⟨⟨ht, hpq.left.symbols⟩, ⟨hu, hpq.right.symbols⟩, ⟨hnames, hpq.names.symbols⟩⟩
      trivial

theorem warn (d : Diagnostic) : Echoes (warn d) (warn d) fun _ _ => True :=
  fun _ _ hpq => .ok ⟨⟨hpq.left.strings, hpq.left.symbols⟩,
    ⟨hpq.right.strings, hpq.right.symbols⟩, ⟨hpq.names.strings, hpq.names.symbols⟩⟩ trivial

end Echoes

end Lower

open Lower

/-! Expressions. -/

/-- Runs from many names and from few: only forms of code are compared. -/
def Lower.Comparison.echoing : Comparison where
  World := Unit
  Later _ _ := True
  Rel _ f g R := Echoes f g (R ())
  Calm _ := True
  Lenient := False
  Name _ := True
  Symbol _ _ _ := True
  Text _ _ _ := True
  composes := composes_trivial
  later_trans _ _ := trivial
  symbol_later _ _ := trivial
  pure h := .pure h
  throw := .throw _
  miss h := h.elim
  bind h _ hk := h.bind fun a b hr => hk () a b trivial hr
  symbol _ := .symbol _
  string := .string _
  warn := .warn _

theorem Lower.Comparison.forms_sameForm : echoing.Forms fun _ => Code.SameForm where
  later h _ := h
  nil := .refl _
  append := .append
  one hform _ := .one hform
  size_eq := Code.SameForm.size_eq

section

variable {env : Env}

theorem readGlobal_echoes (t : Token) :
    Echoes (readGlobal env t) (readGlobal env t) fun a b => a = b := by
  unfold readGlobal
  split
  · exact .pure rfl
  · exact .throw _

theorem surroundings_echoing (env : Env) : Comparison.echoing.Surroundings env env where
  toEnvironments := .refl fun _ _ => trivial
  globals t _ := readGlobal_echoes t
  lineNumbers := rfl
  all _ := trivial

/-- A body comes to the same from fewer names. -/
theorem lowerSubroutine_echoes (s : Subroutine) :
    Echoes (lowerSubroutine env s) (lowerSubroutine env s) Code.SameForm :=
  lowerSubroutine_compares Comparison.forms_sameForm (surroundings_echoing env) s ()

end

end Lss
