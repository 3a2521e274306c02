import Lss.Proofs.Compiled
import Lss.Proofs.LoopsRead
import Lss.Proofs.Numerals
import Lss.Proofs.Relinked
import Lss.Proofs.Reprinted
import Lss.Proofs.Restored

/-!
# Integers from text to text

Digits behind minus signs, as the value of a function. The function compiles if the value is one
that 32 bits hold, to the shortest push of it, and is read back as a function that returns the value
in its shortest form; that text compiles to the same push again. Any other value is refused, for no
other reason.
-/
namespace Lss

/-! A function that returns a value. -/

def Subroutine.returning (name : String) (e : Expr) : Subroutine :=
  ⟨.identifier name, [], ⟨[.return_ (some e) .synthetic], .synthetic⟩⟩

structure Margins where
  inside : String
  after : String
  blank : ∀ c ∈ inside.toList ++ after.toList, Text.isBlank c

def Margins.text (m : Margins) (name e : String) : String :=
  "function " ++ name ++ "() \x7b" ++ m.inside ++ "return " ++ e ++ ";" ++ m.after ++ "\x7d" ++
    m.after

theorem Margins.toList_text (m : Margins) (name e : String) : (m.text name e).toList =
    "function ".toList ++ name.toList ++ "() \x7b".toList ++ m.inside.toList ++ "return ".toList ++
      e.toList ++ [';'] ++ m.after.toList ++ ['\x7d'] ++ m.after.toList := by
  show ("function " ++ name ++ "() \x7b" ++ m.inside ++ "return " ++ e ++ ";" ++ m.after ++
    "\x7d" ++ m.after).toList = _
  simp only [String.toList_append]
  rfl

def Margins.printed (n : Nat) : Margins where
  inside := "\n" ++ spaces n
  after := "\n"
  blank := by
    intro c hc
    simp only [String.toList_append, List.mem_append] at hc
    rcases hc with (hc | hc) | hc
    · rw [List.mem_singleton.mp hc]
      decide
    · exact blank_of_mem_spaces n c hc
    · rw [List.mem_singleton.mp hc]
      decide

def Code.Marks (code : Code) : Prop := ∀ i ∈ code, ∃ line, i = .lineNumber line

namespace Subroutine

open Lower

variable {name : String} {e : Expr} {B : Prop}

theorem formed_returning (hname : IsName name) (he : e.Formed IsName True B) :
    (returning name e).Formed True B where
  name := ⟨rfl, hname⟩
  parameters := by simp [returning]
  few _ := Nat.zero_le _
  body := by
    intro x hx
    rw [List.mem_singleton.mp hx]
    exact .return_ fun _ h => Option.some.inj h ▸ he

/-- The text of the function is made of its tokens. -/
theorem lexed_returning (m : Margins) (hname : IsName name) (he : e.Formed IsName True B) :
    Lexed (m.text name e.text).toList
      ({ functions := [returning name e] } : SourceUnit).tokens := by
  have hformed := formed_returning hname he
  have hinside : Prints m.inside.toList [] :=
    .blanks fun c hc => m.blank c (List.mem_append_left _ hc)
  have hafter : Prints m.after.toList [] :=
    .blanks fun c hc => m.blank c (List.mem_append_right _ hc)
  have hreturn : Prints (Stmt.text "" 0 (.return_ (some e) .synthetic)).toList
      (Stmt.return_ (some e) .synthetic).tokens :=
    (hformed.body _ List.mem_cons_self).prints (by simp) 0
  have htext : (m.text name e.text).toList = (returning name e).headText.toList ++ (['\x7b'] ++
      (m.inside.toList ++ ((Stmt.text "" 0 (.return_ (some e) .synthetic)).toList ++
        (m.after.toList ++ (['\x7d'] ++ m.after.toList))))) := by
    rw [Stmt.toList_return_some, show Keyword.return_.text = "return" from rfl, m.toList_text]
    simp [returning, SubroutineOf.headText, commaList, Token.identifier, Token.synthetic]
  have htokens : ({ functions := [returning name e] } : SourceUnit).tokens =
      (returning name e).headTokens ++ ([Token.of .leftBrace] ++ ([] ++
        ((Stmt.return_ (some e) .synthetic).tokens ++
          ([] ++ ([Token.of .rightBrace] ++ []))))) := by
    simp [SourceUnit.tokens, returning, Stmt.tokens, Stmt.tokensAll]
  rw [htext, htokens]
  have := hformed.prints_head.append (Prints.leftBrace.append (hinside.append (hreturn.append
    (hafter.append (Prints.rightBrace.append hafter)))))
  simpa using this [] [] .nil

/-- A function that has the places of its tokens, and else is one that returns a literal. -/
structure Returns (f : Subroutine) (name : String) (t : Token) : Prop where
  name : f.name.text = name
  parameters : f.parameters = []
  statements : ∃ span, f.body.statements = [.return_ (some (.literal t)) span]

theorem returns_of_bare {f : Subroutine} {t : Token}
    (h : f.bare = (returning name (.literal t)).bare) :
    ∃ u, u.bare = t.bare ∧ Returns f name u := by
  obtain ⟨fname, parameters, ⟨ss, span⟩⟩ := f
  simp only [SubroutineOf.bare, SubroutineOf.rebuild, returning, List.map_nil,
    SubroutineOf.mk.injEq, List.map_eq_nil_iff, BlockOf.mk.injEq] at h
  obtain ⟨hname, rfl, hss, -⟩ := h
  obtain ⟨s, rfl, hs⟩ := List.map_eq_singleton_iff.mp hss
  have hs : s.rebuild Expr.bare Token.bare (fun _ => .synthetic) =
      .return_ (some (.literal t.bare)) .synthetic := hs
  have hname : fname.text = name := congrArg Token.text hname
  cases s with
  | return_ value span =>
    cases value with
    | none => cases hs
    | some e =>
      have he : e.bare = .literal t.bare := by
        injection hs with hvalue
        exact Option.some.inj hvalue
      cases e with
      | literal u => exact ⟨u, Expr.literal.inj he, hname, rfl, span, rfl⟩
      | construct type arguments _ => cases arguments <;> cases he
      | _ => cases he
  | if_ c body arm _ => cases c <;> cases arm <;> cases hs
  | _ => cases hs

/-- Nothing stands around the code of a function without locals that ends in a `return`. -/
theorem finish_start (name : String) (code : Code) (span : Span) :
    { name, parameterCount := 0, isMethod := false, scopes := Scopes.start,
      code := code.toArray : Draft }.finish true span = .ok code := by
  show Except.ok ([] ++ code.toArray.toList ++ []) = _
  rw [List.nil_append, List.append_nil, List.toList_toArray]

/-- The signs become part of the literal. -/
theorem ofSource_returning (m : Margins) (hname : IsName name) (n : Numeral)
    (file : Option String) : ∃ f t, SourceUnit.ofSource (m.text name n.text) file =
      ({ functions := [f], file }, []) ∧ t.kind = .integer ∧ t.text = n.folded n.signs ∧
        Returns f name t := by
  have htree := n.formed_tree (N := IsName) (A := True) n.signs
  have hformed : ({ functions := [returning name (n.tree n.signs)] } : SourceUnit).Formed
      True False := by
    refine ⟨by simp, fun f hf => ?_, by simp⟩
    rw [List.mem_singleton.mp hf]
    exact formed_returning hname htree
  have hlexed := lexed_returning m hname htree
  rw [n.text_tree_signs] at hlexed
  obtain ⟨-, hunit, hquiet⟩ := hformed.reread_lexed hlexed file
  have hfolded : (returning name (n.tree n.signs)).folded.bare =
      (returning name (.literal (.synthetic .integer (n.folded n.signs)))).bare := by
    rw [← n.folded_tree]
    rfl
  rcases hsource : SourceUnit.ofSource (m.text name n.text) file with ⟨u, notes⟩
  rw [hsource] at hunit hquiet
  obtain ⟨ufile, globals, functions, classes⟩ := u
  obtain rfl : notes = [] := hquiet trivial
  simp only [SourceUnit.bare, SourceUnit.folded, SourceUnit.rebuild, List.map_nil,
    List.map_cons, SourceUnit.mk.injEq, List.map_eq_nil_iff] at hunit
  obtain ⟨rfl, rfl, hfunctions, rfl⟩ := hunit
  obtain ⟨f, rfl, hf⟩ := List.map_eq_singleton_iff.mp hfunctions
  obtain ⟨t, ht, hreturns⟩ := returns_of_bare (hf.trans hfolded)
  exact ⟨f, t, rfl, congrArg Token.kind ht, congrArg Token.text ht, hreturns⟩

variable {f : Subroutine} {t : Token}

theorem Returns.lowered (h : Returns f name t) (hk : t.kind = .integer) (env : Env)
    (howner : env.owner = none) : ∃ marks : Code, marks.Marks ∧
      (env.lineNumbers = false → marks = []) ∧ lowerSubroutine env f =
        match Instruction.ofIntegerText? t.text with
        | some i => pure (marks ++ [i, .return_])
        | none => throw (.literalOutOfRange t.text t.span) := by
  obtain ⟨fname, parameters, ⟨ss, fspan⟩⟩ := f
  obtain ⟨hname, hparameters, span, hstatements⟩ := h
  obtain rfl : parameters = [] := hparameters
  obtain rfl : ss = [.return_ (some (.literal t)) span] := hstatements
  refine ⟨lineMark env (.return_ (some (.literal t)) span), fun i hi => ?_, fun hlines => ?_, ?_⟩
  · unfold lineMark at hi
    split at hi
    · exact ⟨_, List.mem_singleton.mp hi⟩
    · cases hi
  · rw [lineMark, hlines]
    rfl
  · simp only [lowerSubroutine, howner, Draft.start, lowerStmts, lowerStmt, lower, lowerExpr,
      lowerLiteral, hk]
    cases Instruction.ofIntegerText? t.text with
    | none => rfl
    | some i =>
      simp only [Lower.ofExcept, marked, pure_bind, map_pure, List.append_nil,
        List.reverse_reverse]
      have hfinish := finish_start fname.text
        (lineMark env (.return_ (some (.literal t)) span) ++ ([i] ++ [Instruction.return_]))
        fname.span
      exact congrArg Lower.ofExcept hfinish

end Subroutine

/-! What is read for the code of such a function. -/

section

open Library Stacked

variable {l : Library} {names : SlotNames} {b : Body} {code x : Code} {e : Expr} {i : Instruction}
  {v : Int}

theorem Instruction.integer?_eq_some (h : i.integer? = some v) :
    i = .pushZero ∧ v = 0 ∨ (∃ x, i = .pushInt8 x ∧ v = x.toInt) ∨
      (∃ x, i = .pushInt16 x ∧ v = x.toInt) ∨ ∃ x, i = .pushInt32 x ∧ v = x.toInt := by
  cases i with
  | pushZero => exact .inl ⟨rfl, (Option.some.inj h).symm⟩
  | pushInt8 x => exact .inr (.inl ⟨x, rfl, (Option.some.inj h).symm⟩)
  | pushInt16 x => exact .inr (.inr (.inl ⟨x, rfl, (Option.some.inj h).symm⟩))
  | pushInt32 x => exact .inr (.inr (.inr ⟨x, rfl, (Option.some.inj h).symm⟩))
  | _ => cases h

theorem Library.shows_push (h : i.integer? = some v) :
    l.Shows names [i] [.literal (.integer v)] := by
  intro stack
  rcases Instruction.integer?_eq_some h with ⟨rfl, rfl⟩ | ⟨x, rfl, rfl⟩ | ⟨x, rfl, rfl⟩ |
    ⟨x, rfl, rfl⟩
  all_goals exact .one fun place => rfl

theorem pushes_push (h : i.integer? = some v) : Pushes (fun _ => True) 1 [i] := by
  rcases Instruction.integer?_eq_some h with ⟨rfl, rfl⟩ | ⟨x, rfl, rfl⟩ | ⟨x, rfl, rfl⟩ |
    ⟨x, rfl, rfl⟩
  all_goals exact .one rfl rfl trivial

theorem Library.does_return (e : Expr) :
    Does (· = e) (step l names .return_) 1 0 (Completes (· = .ofReturn e.whole)) := by
  intro es hes
  obtain ⟨e', rfl⟩ := List.length_eq_one_iff.mp hes.1
  obtain rfl := List.forall_mem_singleton.mp hes.2
  refine ⟨some _, [], ⟨_, rfl, rfl⟩, ⟨rfl, by simp⟩, fun place stack => ?_⟩
  simp only [step]
  show (pop place >>= _).run.run (.expr e' :: stack) = _
  rw [run_bind, run_pop]
  rfl

/-- A value that is returned, as the only statement. -/
theorem recovers_return {P : Instruction → Prop} (hl : b.Laid code)
    (hn : b.Notes code code.length) (hx : Pushes P 1 x) (hshows : b.library.Shows b.names x [e]) :
    b.Recovers code (· = [.ofReturn e.whole]) (x ++ [Instruction.return_]) := by
  intro pre post stop hcode hstop hclear
  refine hx.reads hl hn ⟨[e], ⟨rfl, by simp⟩, hshows⟩ (by simp) (does_return e) hcode hstop hclear
    ?_
  rintro _ rfl
  rfl

theorem Code.Marks.shaped (h : code.Marks) : Shaped (fun _ => True) [] code := by
  induction code with
  | nil => exact .nil
  | cons i code ih =>
    obtain ⟨hi, hcode⟩ := List.forall_mem_cons.mp h
    obtain ⟨line, rfl⟩ := hi
    exact (Shaped.mark line).append (ih hcode)

theorem Code.Marks.recovers {marks : Code} (h : marks.Marks) (hl : b.Laid code)
    (hn : b.Notes code code.length) : b.Recovers code (· = []) marks := by
  induction marks with
  | nil => exact recovers_nil rfl
  | cons i marks ih =>
    obtain ⟨hi, hrest⟩ := List.forall_mem_cons.mp h
    obtain ⟨line, rfl⟩ := hi
    have hmarks : Code.Marks marks := hrest
    have hmark : b.Recovers code (· = []) [.lineNumber line] :=
      fun _ _ _ hcode hstop hclear => reads_mark hl hn hcode hstop hclear rfl
    refine hmark.append (ih hmarks) hmarks.shaped ?_
    rintro _ _ rfl rfl
    rfl

theorem Code.Marks.not_isPrologue {marks : Code} (h : marks.Marks) (hv : i.integer? = some v) :
    ∀ j ∈ marks ++ [i, .return_], ¬ j.isPrologue := by
  intro j hj
  rcases List.mem_append.mp hj with hj | hj
  · obtain ⟨line, rfl⟩ := h j hj
    exact Bool.noConfusion
  · rcases Instruction.integer?_eq_some hv with ⟨rfl, rfl⟩ | ⟨x, rfl, rfl⟩ | ⟨x, rfl, rfl⟩ |
      ⟨x, rfl, rfl⟩
    all_goals
      simp only [List.mem_cons, List.not_mem_nil, or_false] at hj
      rcases hj with rfl | rfl <;> exact Bool.noConfusion

theorem tidy_return (t : Token) (span : Span) : tidy [.return_ (some (.literal t)) span] =
    [.return_ (some (.literal t)) span] := by
  have hfold : Tidy.foldLoops 0 [] [.return_ (some (.literal t)) span] =
      ([.return_ (some (.literal t)) span], 0) := by
    rw [Tidy.foldLoops, Tidy.foldInside]
    all_goals first | rfl | nofun
  unfold tidy
  rw [hfold]
  rfl

/-- A push between marks and a `return` is read as the return of its integer. -/
theorem Library.subroutine_push {marks : Code} (hmarks : marks.Marks) (hv : i.integer? = some v)
    (name : String) : l.subroutine name {} (marks ++ [i, .return_]) =
      .ok (.returning name (.literal (.integer v))) := by
  have hpush : Pushes (fun _ => True) 1 [i] := pushes_push hv
  have hret : Shaped (fun _ => True) _ ([i] ++ [Instruction.return_]) := .return_ hpush
  have hshaped := hmarks.shaped.append hret
  obtain ⟨b, hb, -, -, hlaid, hnotes⟩ := Body.ofCode_ok hshaped.lands l {}
  have hread : b.Recovers _ (· = [.ofReturn (.literal (.integer v))])
      ([i] ++ [Instruction.return_]) :=
    recovers_return hlaid hnotes hpush (shows_push hv)
  have hall := (hmarks.recovers hlaid hnotes).append hread hret
    (T := (· = [.ofReturn (.literal (.integer v))])) (by rintro _ _ rfl rfl; rfl)
  obtain ⟨ss, hss, hstatements⟩ := hall.statements hlaid
  obtain rfl : ss = _ := hss
  have hcode : marks ++ ([i] ++ [Instruction.return_]) = marks ++ [i, .return_] := rfl
  rw [hcode] at hb
  have hdrop : (marks ++ [i, .return_]).dropWhile Instruction.isPrologue = marks ++ [i, .return_] :=
    @Code.dropWhile_prologue [] _ (by simp) (hmarks.not_isPrologue hv)
  unfold Library.subroutine
  rw [hdrop, hb]
  show (b.statements >>= _) = _
  rw [hstatements]
  show Except.ok
      (SubroutineOf.mk _ _ ⟨tidy [.return_ (some (.literal (.integer v))) .synthetic], _⟩) =
    _
  rw [tidy_return]
  rfl

end

namespace Container

def alone (settings : Settings) (name : String) (code : Code) : Container :=
  { ofSettings settings with functions := [⟨name, 0, code⟩] }

def aloneEnv (settings : Settings) (f : Subroutine) : Env where
  globals := .empty
  functions := ({} : Session.Signatures).insert f.name.text (Session.parameterCount f)
  classes := {}
  lineNumbers := settings.lineNumbers
  owner := none

variable {settings : Settings} {f : Subroutine} {name : String} {code : Code} {i : Instruction}
  {v : Int}

theorem compile_alone (settings : Settings) (f : Subroutine) (file : Option String) :
    (ofSettings settings).compile settings [{ functions := [f], file }] =
      (ofSettings settings).conclude (Session.addFunction (aloneEnv settings f)
        ([], { container := ofSettings settings }) (f, Session.parameterCount f)) := by
  rw [compile_eq]
  rfl

theorem link_alone (h : ∀ g argc, .unresolvedCall g argc ∉ code) :
    (alone settings name code).link = .ok (alone settings name code) := by
  have hlinkable : (alone settings name code).Linkable := by
    refine ⟨fun e he g argc hmem => ?_, nofun⟩
    rw [List.mem_singleton.mp he] at hmem
    exact absurd hmem (h g argc)
  obtain ⟨d, hd⟩ := succeeds_link.mpr hlinkable
  rw [hd, link_eq hd]
  refine congrArg Except.ok ?_
  show alone settings name (code.linked _) = _
  rw [Code.linked_eq_self h]

theorem decompile_alone {marks : Code} (hmarks : marks.Marks) (hv : i.integer? = some v) :
    (alone settings name (marks ++ [i, .return_])).decompile =
      ⟨{ functions := [.returning name (.literal (.integer v))] }, []⟩ := by
  let c := alone settings name (marks ++ [i, .return_])
  have hadd : (Library.ofContainer c).addFunction {} ⟨name, 0, marks ++ [i, .return_]⟩ =
      { found := [.returning name (.literal (.integer v))] } := by
    show Library.Progress.add {} none name ((Library.ofContainer c).subroutine name {} _) = _
    rw [Library.subroutine_push hmarks hv]
    rfl
  unfold decompile
  show Decompilation.mk
    { functions := ((Library.ofContainer c).addFunction {} _).found.reverse }
    ((Library.ofContainer c).addFunction {} _).failures.reverse = _
  rw [hadd]
  rfl

theorem text_returning (k : Nat) (name : String) (t : Token) :
    ({ functions := [.returning name (.literal t)] } : SourceUnit).text (spaces k) =
      (Margins.printed k).text name t.text := by
  show ("" ++ "" ++ ((Subroutine.returning name (.literal t)).headText ++ "\x7b\n" ++
    ("" ++ Stmt.indent (spaces k) 1 ++
      Stmt.text (spaces k) 1 (.return_ (some (.literal t)) .synthetic) ++ "\n") ++
        Stmt.indent (spaces k) 0 ++ "\x7d") ++ "\n") = _
  have hvalue : (Expr.literal t).text = t.text := rfl
  have hword : Keyword.return_.text = "return" := rfl
  rw [← String.toList_inj]
  simp only [String.toList_append, Stmt.toList_return_some, hvalue, hword, Margins.toList_text]
  simp [Margins.printed, Subroutine.returning, SubroutineOf.headText, commaList,
    Token.identifier, Token.synthetic, Stmt.indent, List.replicate]

/-- What a function compiles to, if it is a push between marks and a `return`. -/
def Holding (settings : Settings) (name : String) (i : Instruction) (r : Compilation) : Prop :=
  ∃ marks : Code, marks.Marks ∧ (settings.lineNumbers = false → marks = []) ∧
    r = ⟨some (alone settings name (marks ++ [i, .return_])), []⟩

open Subroutine Instruction

/-- The instruction of the literal is all that is computed. -/
theorem compile_returns {t : Token} (h : Returns f name t) (hk : t.kind = .integer)
    (hi : ofIntegerText? t.text = some i) (hv : i.integer? = some v) (settings : Settings)
    (file : Option String) : Holding settings name i
      ((ofSettings settings).compile settings [{ functions := [f], file }]) := by
  obtain ⟨marks, hmarks, hquiet, hlower⟩ := h.lowered hk (aloneEnv settings f) rfl
  rw [hi] at hlower
  refine ⟨marks, hmarks, hquiet, ?_⟩
  have hadd : Session.addFunction (aloneEnv settings f) ([], { container := ofSettings settings })
      (f, Session.parameterCount f) =
        ([⟨name, 0, marks ++ [i, .return_]⟩], { container := ofSettings settings }) := by
    simp only [Session.addFunction, Session.run, ofSettings, hlower]
    rw [← h.name]
    have hcount : Session.parameterCount f = 0 := by rw [Session.parameterCount, h.parameters]; rfl
    rw [hcount]
    rfl
  have hcalls (g : String) (argc : UInt8) :
      .unresolvedCall g argc ∉ marks ++ [i, .return_] := by
    intro hmem
    rcases List.mem_append.mp hmem with hmem | hmem
    · obtain ⟨line, hline⟩ := hmarks _ hmem
      cases hline
    · rcases List.mem_cons.mp hmem with rfl | hmem
      · cases hv
      · cases List.mem_singleton.mp hmem
  have halone : ({ container := ofSettings settings } : Session).container.withFunctions
      ((ofSettings settings).functions ++ [⟨name, 0, marks ++ [i, .return_]⟩].reverse) =
        alone settings name (marks ++ [i, .return_]) := rfl
  rw [compile_alone, hadd, conclude]
  simp only [halone, link_alone hcalls]
  rfl

/-- A literal that no instruction carries is the only fault. -/
theorem compile_returns_none {t : Token} (h : Returns f name t) (hk : t.kind = .integer)
    (hi : ofIntegerText? t.text = none) (settings : Settings) (file : Option String) :
    (ofSettings settings).compile settings [{ functions := [f], file }] =
      ⟨none, [(CompileError.literalOutOfRange t.text t.span).toDiagnostic]⟩ := by
  obtain ⟨marks, -, -, hlower⟩ := h.lowered hk (aloneEnv settings f) rfl
  rw [hi] at hlower
  rw [compile_alone]
  simp only [Session.addFunction, Session.run, ofSettings, hlower]
  rfl

/-- What a numeral compiles to. -/
theorem compileSource_numeral (hname : IsName name) (settings : Settings) (m : Margins)
    (n : Numeral) (file : Option String) :
    let r := compileSource settings (m.text name n.text) file
    (∀ i, pushInteger? n.value = some i → Holding settings name i r) ∧
      (pushInteger? n.value = none → ∃ span,
        r = ⟨none, [(CompileError.literalOutOfRange (n.folded n.signs) span).toDiagnostic]⟩) := by
  intro r
  obtain ⟨f, t, hsource, hkind, htext, hreturns⟩ := ofSource_returning m hname n file
  have hr : r = (ofSettings settings).compile settings [{ functions := [f], file }] := by
    simp only [r, compileSource, hsource]
    rfl
  have hpush : ofIntegerText? t.text = pushInteger? n.value := by
    rw [ofIntegerText?, htext, n.integer?_folded]
    rfl
  rw [hr]
  constructor
  · intro i hi
    exact compile_returns hreturns hkind (hpush.trans hi) (narrowest_of_pushInteger? hi).carries
      settings file
  · intro hnone
    rw [← htext]
    exact ⟨t.span, compile_returns_none hreturns hkind (hpush.trans hnone) settings file⟩

/-- Digits behind minus signs, as the value of a function, compile if 32 bits hold their value, to
its shortest push; this is read back as its shortest form, which compiles to the same push. Else
nothing but the range of the literal is at fault. -/
theorem compileSource_carries (hname : IsName name) (settings : Settings) (m : Margins)
    (n : Numeral) (file : Option String) :
    let r := compileSource settings (m.text name n.text) file
    (r.container.isSome ↔ Fits32 n.value) ∧
      (∀ c, r.container = some c → ∃ i, i.Narrowest n.value ∧ Holding settings name i r ∧
        c.decompile.failures = [] ∧ ∀ k,
          c.decompile.unit.text (spaces k) = (Margins.printed k).text name (toString n.value) ∧
          ∀ settings file, Holding settings name i
            (compileSource settings (c.decompile.unit.text (spaces k)) file)) ∧
      (r.container = none → ∃ span,
        r = ⟨none, [(CompileError.literalOutOfRange (n.folded n.signs) span).toDiagnostic]⟩) := by
  intro r
  obtain ⟨hsome, hnone⟩ := compileSource_numeral hname settings m n file
  cases hi : pushInteger? n.value with
  | none =>
    obtain ⟨span, hr⟩ := hnone hi
    have hout : ¬ Fits32 n.value := fun h => by
      rw [← pushInteger?_isSome, hi] at h
      cases h
    have hr : r = _ := hr
    rw [hr]
    exact ⟨iff_of_false nofun hout, nofun, fun _ => ⟨span, rfl⟩⟩
  | some i =>
    have hnarrow := narrowest_of_pushInteger? hi
    have hin : Fits32 n.value := pushInteger?_isSome.mp (by rw [hi]; rfl)
    have hholds := hsome i hi
    obtain ⟨marks, hmarks, -, hr⟩ := id hholds
    have hr : r = _ := hr
    refine ⟨iff_of_true (by rw [hr]; rfl) hin, fun c hc => ?_, fun h => ?_⟩
    · rw [hr] at hc
      obtain rfl := Option.some.inj hc
      refine ⟨i, hnarrow, hholds, ?_⟩
      rw [decompile_alone hmarks hnarrow.carries]
      refine ⟨rfl, fun k => ⟨text_returning k name _, fun settings file => ?_⟩⟩
      -- the text of the value is that of a numeral again
      have hagain := (compileSource_numeral hname settings (.printed k) (.ofInt n.value) file).1 i
      rw [Numeral.value_ofInt, Numeral.text_ofInt] at hagain
      rw [text_returning]
      exact hagain hi
    · rw [hr] at h
      cases h

/-- The digits of the least value that 32 bits hold, which without its sign is too large. -/
def least (signs : Nat) : Numeral :=
  ⟨signs, "2147483648".toList, by decide, List.all_eq_true.mp (by decide)⟩

theorem compileSource_carries_least :
    let r (signs : Nat) :=
      compileSource {} ((Margins.printed 0).text "f" (least signs).text) none
    (r 3).container.isSome ∧ ¬ (r 2).container.isSome := by
  intro r
  have hname : IsName "f" := .of_isWord (by decide) (by decide)
  obtain ⟨hodd, -⟩ := compileSource_carries hname {} (.printed 0) (least 3) none
  obtain ⟨heven, -⟩ := compileSource_carries hname {} (.printed 0) (least 2) none
  have hvalue : (least 3).value = -2147483648 ∧ (least 2).value = 2147483648 := by decide
  rw [hvalue.1] at hodd
  rw [hvalue.2] at heven
  exact ⟨hodd.mpr (by decide), fun h => absurd (heven.mp h) (by decide)⟩

end Container

end Lss
