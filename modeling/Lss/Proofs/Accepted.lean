import Lss.Proofs.RecognizedUnit
import Lss.Proofs.Settled

/-!
# The parser accepts the grammar

A list of tokens is parsed without complaint exactly if it derives a unit, however the choices of
the grammar are made; and the unit is then the one tree whose derivation makes them all.
-/
namespace Lss

open Grammar

variable {body : List Token} {fin : Token}

def IsBody (body : List Token) : Prop := ∀ t ∈ body, t.kind.isTrivia = false ∧ t.kind ≠ .eof

instance : Decidable (IsBody body) :=
  inferInstanceAs (Decidable (∀ t ∈ body, t.kind.isTrivia = false ∧ t.kind ≠ .eof))

def keptTokens (ts : List Token) : List Token := ts.filter fun t => !t.kind.isTrivia

theorem keptTokens_eq_self {ts : List Token} (h : ∀ t ∈ ts, t.kind.isTrivia = false) :
    keptTokens ts = ts := by
  rw [keptTokens, List.filter_eq_self]
  intro t ht
  simp [h t ht]

namespace TokenStream

/-- Tokens in front of others that come to an end. -/
theorem ofTokens_append {p r : List Token} (hp : ∀ t ∈ p, t.kind ≠ .eof)
    (hr : ∃ t ∈ r, t.kind = .eof) :
    ofTokens (p ++ r) = ⟨keptTokens p ++ (ofTokens r).rest, (ofTokens r).fin⟩ := by
  have hkept : ∀ t ∈ keptTokens p, t.kind ≠ .eof := fun t ht => hp t ((List.mem_filter.mp ht).1)
  have hfind : (keptTokens p).find? (fun t => t.kind == .eof) = none := by
    rw [List.find?_eq_none]
    intro t ht
    simpa using hkept t ht
  obtain ⟨fin, hfin⟩ : ∃ fin, (keptTokens r).find? (fun t => t.kind == .eof) = some fin := by
    obtain ⟨t, ht, hk⟩ := hr
    rw [← Option.isSome_iff_exists, List.find?_isSome]
    refine ⟨t, List.mem_filter.mpr ⟨ht, by simp [hk, TokenKind.isTrivia]⟩, by simp [hk]⟩
  have htake : (keptTokens p ++ keptTokens r).takeWhile (fun t => !(t.kind == .eof))
      = keptTokens p ++ (keptTokens r).takeWhile fun t => !(t.kind == .eof) :=
    List.takeWhile_append_of_pos fun t ht => by simpa using hkept t ht
  simp only [keptTokens] at hfind hfin htake
  simp only [ofTokens, keptTokens, List.filter_append, htake, List.find?_append, hfind, hfin,
    Option.none_or, Option.getD_some]

theorem ofTokens_closed (hbody : IsBody body) (hfin : fin.kind = .eof) :
    ofTokens (body ++ [fin]) = ⟨body, fin⟩ := by
  have hkept : keptTokens body = body := keptTokens_eq_self fun t ht => (hbody t ht).1
  have hend : ofTokens [fin] = ⟨[], fin⟩ := by
    simp [ofTokens, hfin, TokenKind.isTrivia]
  rw [ofTokens_append (fun t ht => (hbody t ht).2) ⟨fin, by simp, hfin⟩, hkept, hend,
    List.append_nil]

end TokenStream

namespace Grammar

variable {G : Prop} {u : SourceUnit}

theorem unit_iff (hfin : fin.kind = .eof) : Unit G (body ++ [fin]) u ↔
    ∃ globals functions classes, Declarations G body globals functions classes ∧
      u = ⟨(body.headD fin).span.file, globals, functions, classes⟩ := by
  constructor
  · intro h
    generalize htokens : body ++ [fin] = tokens at h
    cases h with
    | mk hfin' h =>
      obtain ⟨rfl, hlast⟩ := List.append_inj' htokens rfl
      cases hlast
      exact ⟨_, _, _, h, rfl⟩
  · rintro ⟨globals, functions, classes, h, rfl⟩
    exact .mk hfin h

end Grammar

namespace SourceUnit

/-- What is read without complaint is what is derived with every choice made. -/
theorem ofTokens_eq_iff (hbody : IsBody body) (hfin : fin.kind = .eof) (u : SourceUnit) :
    ofTokens (body ++ [fin]) = (u, []) ↔ Unit True (body ++ [fin]) u := by
  rw [unit_iff hfin, ofTokens, TokenStream.ofTokens_closed hbody hfin, TokenStream.parse]
  have whole (globals : List Token) (functions : List Subroutine) (classes : List ClassDecl) :
      Parser.finishUnit (Parser.withDeclarations { file := (body.headD fin).span.file } globals
        functions classes) = ⟨(body.headD fin).span.file, globals, functions, classes⟩ := by
    simp [Parser.finishUnit, Parser.withDeclarations]
  constructor
  · intro h
    obtain ⟨-, globals, functions, classes, hd, hu⟩ :=
      Parser.declarations_sound fin { file := (body.headD fin).span.file } [] body (by rw [h])
    rw [h, whole] at hu
    exact ⟨globals, functions, classes, hd, hu⟩
  · rintro ⟨globals, functions, classes, hd, rfl⟩
    rw [Parser.declarations_reads hd, whole]

/-- The parser accepts exactly the tokens that the grammar derives, whichever way its choices are
made, and gives the tree for which they are made by precedence, for the nearest `if` and for the
`new`. -/
theorem ofTokens_accepts (hbody : IsBody body) (hfin : fin.kind = .eof) :
    ((ofTokens (body ++ [fin])).2 = [] ↔ ∃ u, Unit False (body ++ [fin]) u) ∧
      ∀ u, ofTokens (body ++ [fin]) = (u, []) ↔ Unit True (body ++ [fin]) u := by
  refine ⟨⟨fun h => ?_, ?_⟩, ofTokens_eq_iff hbody hfin⟩
  · have hu : ofTokens (body ++ [fin]) = ((ofTokens (body ++ [fin])).1, []) := by rw [← h]
    exact ⟨_, ((ofTokens_eq_iff hbody hfin _).mp hu).relaxed⟩
  · rintro ⟨u, hu⟩
    obtain ⟨u', hu'⟩ := hu.settled
    rw [(ofTokens_eq_iff hbody hfin u').mpr hu']

def nestedIf : List Token :=
  [.of (.keyword .function), .identifier "f", .of .leftParen, .identifier "a", .of .rightParen,
    .of .leftBrace, .of (.keyword .if_), .of .leftParen, .identifier "a", .of .rightParen,
    .of (.keyword .if_), .of .leftParen, .identifier "a", .of (.binary .sub),
    .synthetic .integer "1", .of (.binary .sub), .of (.binary .sub), .synthetic .integer "2",
    .of .rightParen, .of (.keyword .return_), .of (.keyword .new), .identifier "T", .of .leftParen,
    .identifier "a", .of .rightParen, .of .semicolon, .of (.keyword .else_), .identifier "a",
    .of .assign, .identifier "a", .of .semicolon, .of .rightBrace]

/-- The difference groups to the left, the second minus is a sign, `a` goes to the `new`, and the
`else` to the inner `if`. -/
def nestedIfUnit : SourceUnit :=
  let a : Expr := .variable (.identifier "a")
  let less : Expr := .binary a (.of (.binary .sub)) (.literal (.synthetic .integer "1"))
  let difference : Expr :=
    .binary less (.of (.binary .sub)) (.literal (.synthetic .integer "-2"))
  let made : Stmt := .return_ (some (.construct (.identifier "T") (some [a]) .synthetic)) .synthetic
  let inner : Stmt := .if_ (some difference) made
    (some (.if_ none (.assign a a) none .synthetic)) .synthetic
  { file := none
    globals := []
    functions := [⟨.identifier "f", [.identifier "a"],
      ⟨[.if_ (some a) inner none .synthetic], .synthetic⟩⟩]
    classes := [] }

theorem ofTokens_accepts_nestedIf : IsBody nestedIf ∧ (Token.of .eof).kind = .eof ∧
    (∃ u, Unit False (nestedIf ++ [.of .eof]) u) ∧
    Unit True (nestedIf ++ [.of .eof]) nestedIfUnit := by
  have hbody : IsBody nestedIf := by decide
  have hread : ofTokens (nestedIf ++ [Token.of .eof]) = (nestedIfUnit, []) := by
    with_unfolding_all rfl
  have hfin : (Token.of .eof).kind = .eof := rfl
  obtain ⟨haccepts, htree⟩ := ofTokens_accepts hbody hfin
  exact ⟨hbody, hfin, haccepts.mp (by rw [hread]), (htree _).mp hread⟩

end SourceUnit

end Lss
