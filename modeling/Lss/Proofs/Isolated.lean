import Lss.Proofs.Accepted
import Lss.Proofs.Contained

/-!
# Broken bodies do no harm outside

A function with a sound head and any tokens between balanced braces is read as one function, with
complaints that stand in it, and all that follows is read as if it were not there. The same is true
of a method between the other members of its class.
-/
namespace Lss

open Grammar

structure RoutineShell where
  word : Token
  name : Token
  left : Token
  /-- What stands between the parentheses, and the names in it. -/
  list : List Token
  names : List Token
  right : Token
  brace : Token
  body : List Token
  close : Token
  word_kind : word.kind = .keyword .function
  name_kind : name.kind = .identifier
  left_kind : left.kind = .leftParen
  parameters : Parameters list names []
  right_kind : right.kind = .rightParen
  brace_kind : brace.kind = .leftBrace
  balanced : Balanced body
  endless : ∀ t ∈ body, t.kind ≠ .eof
  close_kind : close.kind = .rightBrace

namespace RoutineShell

def tokens (f : RoutineShell) : List Token :=
  f.word :: f.name :: f.left :: (f.list ++ f.right :: f.brace :: (f.body ++ [f.close]))

theorem tokens_append (f : RoutineShell) (r : List Token) : f.tokens ++ r = f.word :: f.name ::
    f.left :: (f.list ++ f.right :: f.brace :: (f.body ++ f.close :: r)) := by
  simp [tokens]

/-- Where complaints may stand: in the parameter list, in the body, or at the brace behind it. -/
def places (f : RoutineShell) : List Token := f.list ++ f.right :: (f.body ++ [f.close])

def routine (f : RoutineShell) (body : Block) : Subroutine := ⟨f.name, f.names, body⟩

end RoutineShell

namespace Grammar

variable {ts rest names tail : List Token}

theorem MoreNames.append (h : MoreNames ts names rest) (tail : List Token) :
    MoreNames (ts ++ tail) names (rest ++ tail) := by
  induction h with
  | none => exact .none
  | some hcomma hname _ ih => exact .some hcomma hname ih

theorem Parameters.append (h : Parameters ts names rest) (tail : List Token) :
    Parameters (ts ++ tail) names (rest ++ tail) := by
  cases h with
  | none => exact .none
  | some hname h => exact .some hname (h.append tail)

end Grammar

/-! What follows a body is found again. -/

section

variable {brace close : Token} {b r : List Token}

/-- The first closing brace without its opening one is the same, however the tokens are cut. -/
theorem split_at_close {c s : List Token} {t : Token} (heq : b ++ close :: r = c ++ t :: s)
    (hb : braceDepth 0 b = some 0) (hc : braceDepth 0 c = some 0)
    (hclose : close.kind = .rightBrace) (ht : t.kind = .rightBrace) :
    c = b ∧ t = close ∧ s = r := by
  have stray {x y : List Token} {u : Token} (hu : u.kind = .rightBrace)
      (hx : braceDepth 0 x = some 0) : braceDepth 0 (x ++ u :: y) ≠ some 0 := by
    rw [braceDepth_append, hx, Option.bind_some, braceDepth_stray hu]
    exact nofun
  rcases List.append_eq_append_iff.mp heq with ⟨x, rfl, hx⟩ | ⟨x, rfl, hx⟩
  · cases x with
    | nil =>
      cases hx
      simp
    | cons u x =>
      cases hx
      exact absurd hc (stray hclose hb)
  · cases x with
    | nil =>
      cases hx
      simp
    | cons u x =>
      cases hx
      exact absurd hb (stray ht hc)

/-- A block ends at the brace that closes it, whatever stands in it. -/
theorem Parser.block_isolated (hbrace : brace.kind = .leftBrace) (hb : braceDepth 0 b = some 0)
    (hclose : close.kind = .rightBrace) (fin : Token) (r : List Token) :
    ∃ body notes, Located (b ++ [close]) notes ∧
      (block fin (brace :: (b ++ close :: r))).Gives body r notes := by
  have hends := statements_ends fin brace [] [] (b ++ close :: r) (.tail brace _) .refl
  cases hr : statements fin brace [] [] (b ++ close :: r) (.tail brace _) with
  | done body rest notes hs =>
    rw [hr] at hends
    rcases hends with ⟨c, t, heq, ht, hc, hn⟩ | ⟨-, k, hk, -⟩
    · obtain ⟨rfl, rfl, rfl⟩ := split_at_close heq hb hc hclose ht
      refine ⟨body, notes, hn, ?_⟩
      rw [block]
      exact (expect_gives hbrace).start fun _ => ⟨hs, hr⟩
    · rw [braceDepth_append, hb, Option.bind_some, braceDepth_stray hclose] at hk
      cases hk
  | gaveUp moved rest notes hs =>
    rw [hr] at hends
    exact hends.elim

end

/-- A function whose head is sound is read, and with all of its braces. -/
theorem RoutineShell.gives (f : RoutineShell) (fin : Token) (r : List Token) :
    ∃ body notes, Located f.places notes ∧
      (Parser.subroutine fin (f.tokens ++ r)).Gives (f.routine body) r notes := by
  obtain ⟨body, notes, hn, hg⟩ :=
    Parser.block_isolated f.brace_kind f.balanced.braceDepth f.close_kind fin r
  have hps := f.parameters.append (f.right :: f.brace :: (f.body ++ f.close :: r))
  refine ⟨body, [] ++ ([] ++ (Parser.surplus f.name f.right f.names ++ (notes ++ []))), ?_, ?_⟩
  · simp only [List.nil_append, List.append_nil]
    refine .append ?_ (hn.mono fun t ht => ?_)
    · unfold Parser.surplus
      split
      · exact located_at (by simp [places])
      · exact located_nil
    · exact List.mem_append_right _ (List.mem_cons_of_mem _ ht)
  · rw [f.tokens_append, Parser.subroutine]
    refine (Parser.expect_gives f.word_kind).start fun _ => ?_
    refine (Parser.identifier_gives f.name_kind).next fun _ => ?_
    refine (Parser.parameters_reads f.left_kind f.right_kind hps).next fun _ => ?_
    exact hg.next fun _ => .done

/-! Tokens without weight. -/

theorem Balanced.kept {ts : List Token} (h : Balanced ts) : Balanced (keptTokens ts) := by
  have hopen (p : List Token) : openings (keptTokens p) = openings p := by
    rw [keptTokens, openings, List.countP_filter]
    apply List.countP_congr
    intro t _
    by_cases ht : t.kind = .leftBrace <;> simp [ht, TokenKind.isTrivia]
  have hclose (p : List Token) : closings (keptTokens p) = closings p := by
    rw [keptTokens, closings, List.countP_filter]
    apply List.countP_congr
    intro t _
    by_cases ht : t.kind = .rightBrace <;> simp [ht, TokenKind.isTrivia]
  refine ⟨fun p hp => ?_, by rw [hopen, hclose, h.equal]⟩
  obtain ⟨q, hq, rfl⟩ := List.prefix_filter_iff.mp hp
  exact hclose q ▸ hopen q ▸ h.never q hq

theorem keptTokens_append (a b : List Token) :
    keptTokens (a ++ b) = keptTokens a ++ keptTokens b := List.filter_append ..

namespace Grammar

variable {ts names rest : List Token}

theorem isBody_cons {t : Token} {k : TokenKind} (ht : t.kind = k)
    (hk : k.isTrivia = false ∧ k ≠ .eof) (h : IsBody ts) : IsBody (t :: ts) := by
  intro s hs
  rcases List.mem_cons.mp hs with rfl | hs
  · rwa [ht]
  · exact h s hs

theorem isBody_nil : IsBody [] := by
  intro t ht
  cases ht

theorem MoreNames.isBody (h : MoreNames ts names rest) (hrest : rest = []) : IsBody ts := by
  induction h with
  | none => exact hrest ▸ isBody_nil
  | some hcomma hname _ ih =>
    exact isBody_cons hcomma (by decide) (isBody_cons hname (by decide) (ih hrest))

theorem Parameters.isBody (h : Parameters ts names []) : IsBody ts := by
  cases h with
  | none => exact isBody_nil
  | some hname h => exact isBody_cons hname (by decide) (h.isBody rfl)

theorem Base.isBody {base : Option Token} (h : Base ts base []) : IsBody ts := by
  cases h with
  | none hleft => exact isBody_cons hleft (by decide) isBody_nil
  | some hcolon hbase hleft =>
    exact isBody_cons hcolon (by decide) (isBody_cons hbase (by decide)
      (isBody_cons hleft (by decide) isBody_nil))

theorem Base.append {base : Option Token} (h : Base ts base rest) (tail : List Token) :
    Base (ts ++ tail) base (rest ++ tail) := by
  cases h with
  | none hleft => exact .none hleft
  | some hcolon hbase hleft => exact .some hcolon hbase hleft

end Grammar

namespace RoutineShell

variable (f : RoutineShell)

def kept : RoutineShell :=
  { f with
    body := keptTokens f.body
    balanced := f.balanced.kept
    endless := fun t ht => f.endless t (List.mem_filter.mp ht).1 }

@[simp] theorem kept_routine (body : Block) : f.kept.routine body = f.routine body := rfl

theorem keptTokens_tokens : keptTokens f.tokens = f.kept.tokens := by
  have hlist : keptTokens f.list = f.list :=
    keptTokens_eq_self fun t ht => (f.parameters.isBody t ht).1
  have hbody : keptTokens (f.body ++ [f.close]) = keptTokens f.body ++ [f.close] := by
    rw [keptTokens_append]
    simp [keptTokens, f.close_kind, TokenKind.isTrivia]
  have hcons {t : Token} {ts : List Token} (h : t.kind.isTrivia = false) :
      keptTokens (t :: ts) = t :: keptTokens ts := by
    simp [keptTokens, h]
  rw [tokens, hcons (by rw [f.word_kind]; rfl), hcons (by rw [f.name_kind]; rfl),
    hcons (by rw [f.left_kind]; rfl), keptTokens_append, hlist, hcons (by rw [f.right_kind]; rfl),
    hcons (by rw [f.brace_kind]; rfl), hbody]
  rfl

theorem tokens_endless : ∀ t ∈ f.tokens, t.kind ≠ .eof := by
  intro t ht
  simp only [tokens, List.mem_cons, List.mem_append, List.not_mem_nil, or_false] at ht
  rcases ht with rfl | rfl | rfl | ht | rfl | rfl | ht | rfl
  · rw [f.word_kind]; decide
  · rw [f.name_kind]; decide
  · rw [f.left_kind]; decide
  · exact (f.parameters.isBody t ht).2
  · rw [f.right_kind]; decide
  · rw [f.brace_kind]; decide
  · exact f.endless t ht
  · rw [f.close_kind]; decide

theorem kept_places {notes : List Diagnostic} (h : Located f.kept.places notes) :
    Located f.places notes := by
  apply h.mono
  intro t ht
  simp only [places, kept, List.mem_append, List.mem_cons] at ht ⊢
  rcases ht with ht | rfl | ht | ht
  · exact .inl ht
  · exact .inr (.inl rfl)
  · exact .inr (.inr (.inl (List.mem_filter.mp ht).1))
  · exact .inr (.inr (.inr ht))

end RoutineShell

/-! Loops read the same, whatever was read before. -/

namespace Parser

variable {fin : Token}

/-- What a declaration adds does not depend on the unit so far. -/
theorem declaration_uniform (fin : Token) (ts : List Token) :
    (∃ gs fs cs rest more, Shorter rest ts ∧ ∀ u,
      (declaration fin u ts).Gives (withDeclarations u gs fs cs) rest more) ∨
    ∃ moved rest more h, ∀ u, declaration fin u ts = .gaveUp moved rest more h := by
  unfold declaration
  split
  · cases hr : globalDeclaration fin ts with
    | done g rest notes h =>
      refine .inl ⟨[g], [], [], rest, notes ++ [], h, fun u => ?_⟩
      exact Reply.Gives.start ⟨h, rfl⟩ fun _ => .done
    | gaveUp moved rest notes h => exact .inr ⟨moved, rest, notes, h, fun u => rfl⟩
  · cases hr : subroutine fin ts with
    | done f rest notes h =>
      refine .inl ⟨[], [f], [], rest, notes ++ [], h, fun u => ?_⟩
      exact Reply.Gives.start ⟨h, rfl⟩ fun _ => .done
    | gaveUp moved rest notes h => exact .inr ⟨moved, rest, notes, h, fun u => rfl⟩
  · cases hr : classDeclaration fin ts with
    | done c rest notes h =>
      refine .inl ⟨[], [], [c], rest, notes ++ [], h, fun u => ?_⟩
      exact Reply.Gives.start ⟨h, rfl⟩ fun _ => .done
    | gaveUp moved rest notes h => exact .inr ⟨moved, rest, notes, h, fun u => rfl⟩
  · exact .inr ⟨false, ts, _, Nat.le_refl _, fun u => rfl⟩

theorem declarations_uniform (fin : Token) (ts : List Token) : ∃ gs fs cs more, ∀ u notes,
    declarations fin u notes ts
      = (finishUnit (withDeclarations u gs fs cs), notes.reverse ++ more) := by
  cases ts with
  | nil =>
    refine ⟨[], [], [], [], fun u notes => ?_⟩
    rw [declarations, List.append_nil]
    rfl
  | cons t rest =>
    rcases declaration_uniform fin (t :: rest) with
      ⟨gs, fs, cs, rest', more, hlt, hd⟩ | ⟨moved, rest', more, h, hd⟩
    · have _lt : rest'.length ≤ rest.length := Nat.le_of_lt_succ hlt
      obtain ⟨gs', fs', cs', more', ih⟩ := declarations_uniform fin rest'
      refine ⟨gs ++ gs', fs ++ fs', cs ++ cs', more ++ more', fun u notes => ?_⟩
      rw [declarations_step (hd u), ih]
      simp [withDeclarations]
    · have _lt := recover_shorter h
      obtain ⟨gs, fs, cs, more', ih⟩ := declarations_uniform fin (recover moved rest')
      refine ⟨gs, fs, cs, more ++ more', fun u notes => ?_⟩
      rw [declarations, hd]
      simp only [ih, List.reverse_append, List.reverse_reverse, List.append_assoc]
termination_by ts.length
decreasing_by all_goals (simp only [Shorter, List.length_cons] at *; omega)

theorem member_uniform (fin : Token) (ts : List Token) :
    (∃ ps ms rest more, Shorter rest ts ∧ ∀ decl,
      (member fin decl ts).Gives (withMembers decl ps ms) rest more) ∨
    ∃ moved rest more h, ∀ decl, member fin decl ts = .gaveUp moved rest more h := by
  unfold member
  split
  · cases hr : propertyDeclaration fin ts with
    | done p rest notes h =>
      exact .inl ⟨[p], [], rest, notes ++ [], h, fun d => Reply.Gives.start ⟨h, rfl⟩ fun _ => .done⟩
    | gaveUp moved rest notes h => exact .inr ⟨moved, rest, notes, h, fun d => rfl⟩
  · cases hr : subroutine fin ts with
    | done m rest notes h =>
      exact .inl ⟨[], [m], rest, notes ++ [], h, fun d => Reply.Gives.start ⟨h, rfl⟩ fun _ => .done⟩
    | gaveUp moved rest notes h => exact .inr ⟨moved, rest, notes, h, fun d => rfl⟩
  · exact .inr ⟨false, ts, _, Nat.le_refl _, fun d => rfl⟩

theorem members_uniform (fin : Token) (ts : List Token) : ∃ ps ms rest more, ∀ decl notes
    (all : List Token) (hs : Shorter ts all), (members fin decl notes ts hs).Gives
      (finishClass (withMembers decl ps ms)) rest (notes.reverse ++ more) := by
  cases ts with
  | nil =>
    refine ⟨[], [], [], [(ParseFault.expectedToken .rightBrace "after class body" fin).at_ fin],
      fun decl notes all hs => ?_⟩
    rw [members]
    exact .done
  | cons t rest =>
    by_cases ht : t.kind = .rightBrace
    · refine ⟨[], [], rest, [], fun decl notes all hs => ?_⟩
      rw [members, if_pos ht, List.append_nil]
      exact .done
    · rcases member_uniform fin (t :: rest) with
        ⟨ps, ms, rest', more, hlt, hd⟩ | ⟨moved, rest', more, h, hd⟩
      · have _lt : rest'.length ≤ rest.length := Nat.le_of_lt_succ hlt
        obtain ⟨ps', ms', last, more', ih⟩ := members_uniform fin rest'
        refine ⟨ps ++ ps', ms ++ ms', last, more ++ more', fun decl notes all hs => ?_⟩
        obtain ⟨hs', hstep⟩ := members_step notes hs ht (hd decl)
        rw [hstep]
        simpa [withMembers] using ih (withMembers decl ps ms) (more.reverse ++ notes) all hs'
      · have _lt := recover_shorter h
        obtain ⟨ps, ms, last, more', ih⟩ := members_uniform fin (recover moved rest')
        refine ⟨ps, ms, last, more ++ more', fun decl notes all hs => ?_⟩
        rw [members, if_neg ht, hd]
        simpa using ih decl (more.reverse ++ notes) all (recover_within h hs)
termination_by ts.length
decreasing_by all_goals (simp only [Shorter, List.length_cons] at *; omega)

/-- A method with a sound head is added to the class so far, and the other members follow. -/
theorem members_shell (f : RoutineShell) (fin : Token) (r : List Token) : ∃ body more,
    Located f.places more ∧ ∀ decl notes (all : List Token) (hs : Shorter (f.tokens ++ r) all),
      ∃ hs', members fin decl notes (f.tokens ++ r) hs
        = members fin { decl with methods := f.routine body :: decl.methods }
            (more.reverse ++ notes) r hs' := by
  obtain ⟨body, more, hmore, hg⟩ := f.gives fin r
  refine ⟨body, more ++ [], by simpa using hmore, fun decl notes all hs => ?_⟩
  have hm : (member fin decl (f.tokens ++ r)).Gives
      { decl with methods := f.routine body :: decl.methods } r (more ++ []) := by
    rw [member, show peek fin (f.tokens ++ r) = .keyword .function from f.word_kind]
    exact hg.start fun _ => .done
  exact members_step notes hs (by rw [f.word_kind]; decide) hm

theorem declarations_shell (f : RoutineShell) (fin : Token) (r : List Token) : ∃ body more,
    Located f.places more ∧ ∀ u notes, declarations fin u notes (f.tokens ++ r)
      = declarations fin { u with functions := f.routine body :: u.functions }
          (more.reverse ++ notes) r := by
  obtain ⟨body, more, hmore, hg⟩ := f.gives fin r
  refine ⟨body, more ++ [], by simpa using hmore, fun u notes => ?_⟩
  have hd : (declaration fin u (f.tokens ++ r)).Gives
      { u with functions := f.routine body :: u.functions } r (more ++ []) := by
    rw [declaration, show peek fin (f.tokens ++ r) = .keyword .function from f.word_kind]
    exact hg.start fun _ => .done
  exact declarations_step hd

end Parser

structure ClassShell where
  word : Token
  name : Token
  /-- The base class, if there is one, and the brace. -/
  head : List Token
  base : Option Token
  /-- The members, with the tokens between them that do not count. -/
  list : List Token
  properties : List Token
  methods : List Subroutine
  word_kind : word.kind = .keyword .class_
  name_kind : name.kind = .identifier
  opens : Base head base []
  members : ∀ rest, Grammar.Members True (keptTokens list ++ rest) properties methods rest
  endless : ∀ t ∈ list, t.kind ≠ .eof

namespace ClassShell

variable (c : ClassShell)

def tokens : List Token := c.word :: c.name :: (c.head ++ c.list)

theorem keptTokens_append (r : List Token) : keptTokens c.tokens ++ r
    = c.word :: c.name :: (c.head ++ (keptTokens c.list ++ r)) := by
  have hhead : keptTokens c.head = c.head :=
    keptTokens_eq_self fun t ht => (c.opens.isBody t ht).1
  have hlist := Lss.keptTokens_append c.head c.list
  rw [hhead] at hlist
  rw [← List.append_assoc, ← hlist]
  simp [tokens, keptTokens, c.word_kind, c.name_kind, TokenKind.isTrivia]

theorem tokens_endless : ∀ t ∈ c.tokens, t.kind ≠ .eof := by
  intro t ht
  simp only [tokens, List.mem_cons, List.mem_append] at ht
  rcases ht with rfl | rfl | ht | ht
  · rw [c.word_kind]; decide
  · rw [c.name_kind]; decide
  · exact (c.opens.isBody t ht).2
  · exact c.endless t ht

/-- A class is read up to its last sound member, and the rest of it as its members. -/
theorem declarations_eq (fin : Token) (r ps : List Token) (ms : List Subroutine)
    (rest : List Token) (more : List Diagnostic)
    (hr : ∀ (all : List Token) (hs : Shorter r all), (Parser.members fin
      (Parser.withMembers ⟨c.name, c.base, [], []⟩ c.properties c.methods) [] r hs).Gives
        (Parser.finishClass (Parser.withMembers
          (Parser.withMembers ⟨c.name, c.base, [], []⟩ c.properties c.methods) ps ms)) rest more)
    (u : SourceUnit) (notes : List Diagnostic) :
    Parser.declarations fin u notes (keptTokens c.tokens ++ r)
      = Parser.declarations fin
          { u with classes := ⟨c.name, c.base, c.properties ++ ps, c.methods ++ ms⟩ :: u.classes }
          (more.reverse ++ notes) rest := by
  have hhead : (Parser.classHead fin (c.head ++ (keptTokens c.list ++ r))).Gives c.base
      (keptTokens c.list ++ r) [] :=
    Parser.classHead_reads (c.opens.append _)
  have hclass : (Parser.classDeclaration fin (keptTokens c.tokens ++ r)).Gives
      ⟨c.name, c.base, c.properties ++ ps, c.methods ++ ms⟩ rest ([] ++ ([] ++ ([] ++ more))) := by
    rw [c.keptTokens_append, Parser.classDeclaration]
    refine (Parser.expect_gives c.word_kind).start fun _ => ?_
    refine (Parser.identifier_gives c.name_kind).next fun _ => ?_
    refine hhead.next fun hs => ?_
    obtain ⟨hs', hm⟩ := Parser.members_follow (c.members r) ⟨c.name, c.base, [], []⟩ [] hs
    rw [hm]
    simpa [Parser.finishClass, Parser.withMembers] using hr _ hs'
  have hd : (Parser.declaration fin u (keptTokens c.tokens ++ r)).Gives
      { u with classes := ⟨c.name, c.base, c.properties ++ ps, c.methods ++ ms⟩ :: u.classes } rest
      ([] ++ ([] ++ ([] ++ more)) ++ []) := by
    have hpeek : Parser.peek fin (keptTokens c.tokens ++ r) = .keyword .class_ := by
      rw [c.keptTokens_append]
      exact c.word_kind
    rw [Parser.declaration, hpeek]
    exact hclass.start fun _ => .done
  rw [c.keptTokens_append] at hd ⊢
  simpa using Parser.declarations_step hd

end ClassShell

namespace SourceUnit

variable {r : List Token}

theorem parse_eq (s : TokenStream) :
    s.parse = Parser.declarations s.fin { file := (s.rest.headD s.fin).span.file } [] s.rest := rfl

/-- A function in front of a unit is read as one more function of it. -/
theorem ofTokens_shell (f : RoutineShell) (hr : ∃ t ∈ r, t.kind = .eof) :
    ∃ body notes, Located f.places notes ∧
      (ofTokens (f.tokens ++ r)).1.functions = f.routine body :: (ofTokens r).1.functions ∧
      (ofTokens (f.tokens ++ r)).1.globals = (ofTokens r).1.globals ∧
      (ofTokens (f.tokens ++ r)).1.classes = (ofTokens r).1.classes ∧
      (ofTokens (f.tokens ++ r)).2 = notes ++ (ofTokens r).2 := by
  have hstream := TokenStream.ofTokens_append f.tokens_endless hr
  generalize hs : TokenStream.ofTokens r = s at hstream
  obtain ⟨body, notes, hnotes, hshell⟩ := Parser.declarations_shell f.kept s.fin s.rest
  obtain ⟨gs, fs, cs, more, huniform⟩ := Parser.declarations_uniform s.fin s.rest
  refine ⟨body, notes, f.kept_places hnotes, ?_⟩
  simp only [ofTokens, parse_eq, hstream, hs, f.keptTokens_tokens, hshell, huniform]
  simp [Parser.finishUnit, Parser.withDeclarations]

/-- A method behind sound members of a class is read as one more method of it. -/
theorem ofTokens_class_shell (f : RoutineShell) (c : ClassShell) (hr : ∃ t ∈ r, t.kind = .eof) :
    ∃ ps ms cs body notes, Located f.places notes ∧
      (ofTokens (c.tokens ++ r)).1.classes
        = ⟨c.name, c.base, c.properties ++ ps, c.methods ++ ms⟩ :: cs ∧
      (ofTokens (c.tokens ++ (f.tokens ++ r))).1.classes
        = ⟨c.name, c.base, c.properties ++ ps, c.methods ++ f.routine body :: ms⟩ :: cs ∧
      (ofTokens (c.tokens ++ (f.tokens ++ r))).1.globals = (ofTokens (c.tokens ++ r)).1.globals ∧
      (ofTokens (c.tokens ++ (f.tokens ++ r))).1.functions
        = (ofTokens (c.tokens ++ r)).1.functions ∧
      (ofTokens (c.tokens ++ (f.tokens ++ r))).2 = notes ++ (ofTokens (c.tokens ++ r)).2 := by
  have hr' : ∃ t ∈ f.tokens ++ r, t.kind = .eof := by
    obtain ⟨t, ht, hk⟩ := hr
    exact ⟨t, List.mem_append_right _ ht, hk⟩
  have hstream := TokenStream.ofTokens_append c.tokens_endless hr
  have hstream' := TokenStream.ofTokens_append c.tokens_endless hr'
  rw [TokenStream.ofTokens_append f.tokens_endless hr, f.keptTokens_tokens] at hstream'
  generalize TokenStream.ofTokens r = s at hstream hstream'
  obtain ⟨body, notes, hnotes, hshell⟩ := Parser.members_shell f.kept s.fin s.rest
  obtain ⟨ps, ms, rest, more, hmembers⟩ := Parser.members_uniform s.fin s.rest
  obtain ⟨gs, fs, cs, last, huniform⟩ := Parser.declarations_uniform s.fin rest
  let sound := Parser.withMembers ⟨c.name, c.base, [], []⟩ c.properties c.methods
  have hwithout := c.declarations_eq s.fin s.rest ps ms rest more (hmembers sound [])
  have hwith := c.declarations_eq s.fin (f.kept.tokens ++ s.rest) ps (f.routine body :: ms) rest
    (notes ++ more) fun all hs => by
      obtain ⟨hs', hstep⟩ := hshell sound [] all hs
      rw [hstep]
      have := hmembers { sound with methods := f.routine body :: sound.methods }
        (notes.reverse ++ []) all hs'
      simpa [sound, Parser.withMembers] using this
  refine ⟨ps, ms, cs, body, notes, f.kept_places hnotes, ?_⟩
  simp only [ofTokens, parse_eq, hstream, hstream', hwithout, hwith, huniform]
  simp [Parser.finishUnit, Parser.withDeclarations]

/-- A broken body damages nothing else. Whatever stands between the balanced braces of a function,
it is read as one function with its name and parameters, complaints stand in it, and the
declarations behind it are read as if it were not there; so are the members behind a method in the
class, and the members behind a method at any point of reading a class. -/
theorem ofTokens_isolated (f : RoutineShell) (hr : ∃ t ∈ r, t.kind = .eof) :
    (∃ body notes, Located f.places notes ∧
      (ofTokens (f.tokens ++ r)).1.functions = f.routine body :: (ofTokens r).1.functions ∧
      (ofTokens (f.tokens ++ r)).1.globals = (ofTokens r).1.globals ∧
      (ofTokens (f.tokens ++ r)).1.classes = (ofTokens r).1.classes ∧
      (ofTokens (f.tokens ++ r)).2 = notes ++ (ofTokens r).2) ∧
    (∀ c : ClassShell, ∃ ps ms cs body notes, Located f.places notes ∧
      (ofTokens (c.tokens ++ r)).1.classes
        = ⟨c.name, c.base, c.properties ++ ps, c.methods ++ ms⟩ :: cs ∧
      (ofTokens (c.tokens ++ (f.tokens ++ r))).1.classes
        = ⟨c.name, c.base, c.properties ++ ps, c.methods ++ f.routine body :: ms⟩ :: cs ∧
      (ofTokens (c.tokens ++ (f.tokens ++ r))).1.globals = (ofTokens (c.tokens ++ r)).1.globals ∧
      (ofTokens (c.tokens ++ (f.tokens ++ r))).1.functions
        = (ofTokens (c.tokens ++ r)).1.functions ∧
      (ofTokens (c.tokens ++ (f.tokens ++ r))).2 = notes ++ (ofTokens (c.tokens ++ r)).2) ∧
    ∀ fin, ∃ body more, Located f.places more ∧ ∀ decl notes (all : List Token)
      (hs : Shorter (f.tokens ++ r) all), ∃ hs', Parser.members fin decl notes (f.tokens ++ r) hs
        = Parser.members fin { decl with methods := f.routine body :: decl.methods }
            (more.reverse ++ notes) r hs' :=
  ⟨ofTokens_shell f hr, fun c => ofTokens_class_shell f c hr,
    fun fin => Parser.members_shell f fin r⟩

def brokenRoutine : RoutineShell where
  word := .of (.keyword .function)
  name := .identifier "f"
  left := .of .leftParen
  list := [.identifier "a", .of .comma, .identifier "b"]
  names := [.identifier "a", .identifier "b"]
  right := .of .rightParen
  brace := .of .leftBrace
  body := [.identifier "x", .of .assign, .of .assign, .synthetic .integer "1", .of .semicolon,
    .of .leftBrace, .of (.keyword .class_), .identifier "Y", .of .leftBrace, .of .rightParen,
    .of .rightBrace, .of (.keyword .else_), .of .leftParen, .of .rightBrace,
    .of (.keyword .return_)]
  close := .of .rightBrace
  word_kind := rfl
  name_kind := rfl
  left_kind := rfl
  parameters := .some rfl (.some rfl rfl .none)
  right_kind := rfl
  brace_kind := rfl
  balanced := by decide
  endless := by decide
  close_kind := rfl

def openClass : ClassShell where
  word := .of (.keyword .class_)
  name := .identifier "C"
  head := [.of .colon, .identifier "B", .of .leftBrace]
  base := some (.identifier "B")
  list := [.of (.keyword .property), .identifier "p", .of .semicolon]
  properties := [.identifier "p"]
  methods := []
  word_kind := rfl
  name_kind := rfl
  opens := .some rfl rfl rfl
  members := fun _ => .property ⟨rfl, rfl, rfl⟩ .nil
  endless := by decide

def restOfClass : List Token :=
  [.of (.keyword .property), .identifier "q", .of .semicolon, .of .rightBrace,
    .of (.keyword .global), .identifier "g", .of .semicolon, .of .eof]

theorem ofTokens_isolated_brokenRoutine : (∃ t ∈ restOfClass, t.kind = .eof) ∧
    ∃ body notes, Located brokenRoutine.places notes ∧
      (ofTokens (openClass.tokens ++ (brokenRoutine.tokens ++ restOfClass))).1.classes
        = [⟨.identifier "C", some (.identifier "B"), [.identifier "p", .identifier "q"],
            [brokenRoutine.routine body]⟩] ∧
      (ofTokens (openClass.tokens ++ (brokenRoutine.tokens ++ restOfClass))).1.globals
        = [.identifier "g"] ∧
      (ofTokens (openClass.tokens ++ (brokenRoutine.tokens ++ restOfClass))).2 = notes := by
  have hr : ∃ t ∈ restOfClass, t.kind = .eof := by decide
  have hwithout : ofTokens (openClass.tokens ++ restOfClass) = (⟨none, [.identifier "g"], [],
      [⟨.identifier "C", some (.identifier "B"), [.identifier "p", .identifier "q"], []⟩]⟩,
      []) := by
    with_unfolding_all rfl
  obtain ⟨-, hclass, -⟩ := ofTokens_isolated brokenRoutine hr
  obtain ⟨ps, ms, cs, body, notes, hnotes, hbefore, hafter, hglobals, -, hquiet⟩ :=
    hclass openClass
  rw [hwithout] at hbefore hglobals hquiet
  simp only [List.cons.injEq, ClassDeclOf.mk.injEq, openClass, List.singleton_append,
    List.nil_append, true_and] at hbefore
  obtain ⟨⟨rfl, rfl⟩, rfl⟩ := hbefore
  exact ⟨hr, body, notes, hnotes, hafter, hglobals, by simpa using hquiet⟩

end SourceUnit

end Lss
