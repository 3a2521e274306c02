import Lss.Proofs.ParsedUnit
import Lss.Proofs.PrintedUnit
import Lss.Proofs.RereadUnit

/-!
# Printing and parsing

The text of a formed unit parses to the unit, with every minus before a number folded into it. The
parser folds them itself, so what it gave for a source is what it gives for its text again.
-/
namespace Lss

theorem blank_of_mem_spaces (n : Nat) : ∀ c ∈ (spaces n).toList, Text.isBlank c := by
  intro c hc
  rw [spaces, String.toList_ofList] at hc
  rw [(List.mem_replicate.mp hc).2]
  decide

/-- Text that is made of the tokens of a formed unit parses to the unit, folded. -/
theorem SourceUnit.Formed.reread_lexed {A B : Prop} {u : SourceUnit} (hu : u.Formed A B)
    {text : String} (h : Lexed text.toList u.tokens) (file : Option String) :
    (scan text file false).2 = [] ∧
      (ofSource text file).1.bare = { u.folded.bare with file } ∧
      (A → (ofSource text file).2 = []) := by
  have hscan := h.scan_eq_nil file
  obtain ⟨fin, hparse⟩ := ofSource_eq hscan
  rw [hparse]
  exact ⟨hscan, Parser.declarations_reread hu fin file (h.map_bare_significant file)⟩

/-- The text of a formed unit scans without complaint and parses to the unit, folded. -/
theorem SourceUnit.Formed.reread {A B : Prop} {u : SourceUnit} (hu : u.Formed A B) (n : Nat)
    (file : Option String) :
    (scan (u.text (spaces n)) file false).2 = [] ∧
      (ofSource (u.text (spaces n)) file).1.bare = { u.folded.bare with file } ∧
      (A → (ofSource (u.text (spaces n)) file).2 = []) :=
  hu.reread_lexed (hu.lexed (blank_of_mem_spaces n)) file

/-! Where no minus stands before a number, folding changes nothing. -/

section

variable {N : String → Prop} {A : Prop}

theorem map_eq_self {α : Type} {f : α → α} {as : List α} (h : ∀ a ∈ as, f a = a) :
    as.map f = as := by
  rw [List.map_congr_left h, List.map_id']

theorem Expr.Formed.folded_eq {e : Expr} (h : e.Formed N A True) : e.folded = e := by
  induction h with
  | literal | signed | name | this | new => rfl
  | grouping _ ih => rw [folded, ih]
  | @unary op e _ _ _ hminus _ ih =>
    rw [folded, ih, prefixed]
    split
    · next hop => rw [hminus trivial hop, Option.getD_none]
    · rfl
  | binary _ _ _ _ _ _ ihl ihr => rw [folded, ihl, ihr]
  | @member l op t _ _ _ _ _ _ ih | @scope l op t _ _ _ _ _ _ ih =>
    exact congrArg (Expr.binary · op (.variable t)) ih
  | dynamic _ _ _ _ _ _ ihl ihr => rw [folded, ihl, ihr]
  | index _ _ _ iha ihi => rw [folded, iha, ihi]
  | array _ ih => rw [folded, foldedAll_eq, map_eq_self ih]
  | call _ _ _ _ _ ihf ih => rw [folded, ihf, foldedAll_eq, map_eq_self ih]
  | construct _ _ _ _ ih => rw [folded, foldedAll_eq, map_eq_self ih]

theorem Stmt.Formed.folded_eq {s : Stmt} (h : s.Formed N A True) : s.folded = s := by
  unfold folded
  induction h with
  | block _ ih => rw [rebuild, rebuildAll_eq, map_eq_self ih, id]
  | expr he => rw [rebuild, he.folded_eq]
  | return_ hv => rw [rebuild, Option.map_congr fun e he => (hv e he).folded_eq, Option.map_id', id]
  | if_ hc _ ih => rw [rebuild, ih, Option.map_some, hc.folded_eq, id]
  | ifElse hc _ _ _ ihb iha =>
    rw [rebuild, rebuild, ihb, iha, Option.map_some, hc.folded_eq, Option.map_none, id, id]
  | while_ hc _ ih => rw [rebuild, ih, hc.folded_eq]
  | doWhile _ hc ih => rw [rebuild, ih, hc.folded_eq]
  | foreach _ _ hc _ ih => rw [rebuild, ih, hc.folded_eq, id]
  | assign ht hv => rw [rebuild, ht.folded_eq, hv.folded_eq]
  | var _ _ hi => rw [rebuild, Option.map_congr fun e he => (hi e he).folded_eq, Option.map_id', id]

theorem SubroutineOf.Formed.folded_eq {s : Subroutine} (h : s.Formed A True) : s.folded = s := by
  have hbody := map_eq_self fun x hx => (h.body x hx).folded_eq
  unfold Stmt.folded at hbody
  rw [folded, rebuild, hbody, List.map_id]
  rfl

theorem ClassDeclOf.Formed.folded_eq {c : ClassDecl} (h : c.Formed A True) : c.folded = c := by
  have hmethods := map_eq_self fun m hm => (h.methods m hm).folded_eq
  unfold SubroutineOf.folded at hmethods
  rw [folded, rebuild, hmethods, Option.map_id, List.map_id]
  rfl

theorem SourceUnit.Formed.folded_eq {u : SourceUnit} (h : u.Formed A True) : u.folded = u := by
  have hfunctions := map_eq_self fun f hf => (h.functions f hf).folded_eq
  have hclasses := map_eq_self fun c hc => (h.classes c hc).folded_eq
  unfold SubroutineOf.folded at hfunctions
  unfold ClassDeclOf.folded at hclasses
  rw [folded, rebuild, hfunctions, hclasses, List.map_id]

end

/-- What is parsed for a source without lexical faults is printed as a text that is scanned without
complaint and parsed to the same unit, whatever was wrong with the syntax of the source; if nothing
was, nothing is wrong with the text. -/
theorem SourceUnit.ofSource_text {source : String} {file : Option String}
    (h : (scan source file false).2 = []) (n : Nat) :
    let u := (ofSource source file).1
    (scan (u.text (spaces n)) file false).2 = [] ∧
      (ofSource (u.text (spaces n)) file).1.bare = u.bare ∧
      ((ofSource source file).2 = [] → (ofSource (u.text (spaces n)) file).2 = []) := by
  intro u
  obtain ⟨fin, hparse⟩ := ofSource_eq h
  have hspelled := (ofTokens_scan h).1
  have hfile : u.file = file := by
    simp only [u, hparse]
    exact Parser.declarations_file fin _ [] _ hspelled
  -- The number of arguments is within bounds when nothing was complained of.
  have hformed : u.Formed ((ofSource source file).2 = []) True := by
    simp only [u, hparse]
    refine Parser.declarations_formed fin _ [] _ hspelled (fun _ => ?_) id
    exact ⟨by simp, by simp, by simp⟩
  obtain ⟨hscan, hunit, hquiet⟩ := hformed.reread n file
  refine ⟨hscan, ?_, hquiet⟩
  rw [hunit, hformed.folded_eq, ← hfile]
  rfl

/-- Signs, powers, accesses, a type without arguments and an `else` that belongs to the nearer of
two conditions. -/
def tangled : String :=
  "function f(a) { if (a) while (- -a) if (a.b) a = -2 ** -3 ** 5.x; else a::$(-7.5) = new T; }"

theorem SourceUnit.ofSource_text_tangled :
    let u := (ofSource tangled none).1
    let v := (ofSource (tangled ++ "f") none).1
    (ofSource (u.text (spaces 2)) none).1.bare = u.bare ∧
      (ofSource (u.text (spaces 2)) none).2 = [] ∧
      (ofSource (v.text (spaces 0)) none).1.bare = v.bare := by
  have hrun : (scan tangled none false).2.isEmpty ∧ (ofSource tangled none).2.isEmpty ∧
      (scan (tangled ++ "f") none false).2.isEmpty := by decide +kernel
  simp only [List.isEmpty_iff] at hrun
  obtain ⟨hscan, hquiet, hscan'⟩ := hrun
  obtain ⟨-, hsame, hstill⟩ := ofSource_text hscan 2
  exact ⟨hsame, hstill hquiet, (ofSource_text hscan' 0).2.1⟩

end Lss
