import Lss.Proofs.SpannedUnit

/-!
# Walks over tokens

A parser is given a list without end marks, and what it takes is gone. A walk goes over the same
tokens by position, in an array that holds end marks as well. It comes to nothing, apart from all
complaints, when it reads outside the array or makes more calls in one another than it may, and it
notes where each turn of a loop over statements, members or declarations began and where it ended.
-/
namespace Lss

inductive Stray where
  /-- A token outside the array was read. -/
  | outside
  /-- No calls are left. -/
  | unfinished
deriving DecidableEq, Repr

structure Cursor where
  tokens : Array Token
  current : Nat
  notes : List Diagnostic
  /-- The positions before and after each turn of a loop. -/
  turns : List (Nat × Nat)

abbrev Walk := ExceptT Unit (StateT Cursor (Except Stray))

namespace Walk

variable {α β : Type}

def stray (e : Stray) : Walk α := ExceptT.mk fun _ => .error e

def giveUp : Walk α := throw ()

/-- Goes on where another walk gave up. -/
def attempt (x : Walk α) : Walk (Except Unit α) := ExceptT.mk (Except.ok <$> x.run)

def note (d : Diagnostic) : Walk Unit := modify fun s => { s with notes := s.notes ++ [d] }

def noteWhen (c : Bool) (d : Diagnostic) : Walk Unit := if c then note d else pure ()

def peek : Walk Token := do
  let s ← get
  match s.tokens[s.current]? with
  | some t => pure t
  | none => stray .outside

/-- No walk goes on behind an end mark. -/
def advance : Walk Token := do
  let t ← peek
  if t.kind = .eof then pure t
  else
    modify fun s => { s with current := s.current + 1 }
    pure t

def fail (f : ParseFault) : Walk α := do
  let t ← peek
  note (f.at_ t)
  giveUp

def consume (kind : TokenKind) (context : String) : Walk Token := do
  let t ← peek
  if t.kind = kind then advance else fail (.expectedToken kind context t)

def identifier (context : String) : Walk Token := do
  let t ← peek
  if t.kind = .identifier then advance else fail (.expectedIdentifier context t)

def memberName : Walk Token := do
  let t ← peek
  if t.kind = .identifier || t.kind.isProperty then advance else fail .expectedMember

/-- A missing brace is only complained of. -/
def closeBrace (context : String) : Walk Span := do
  let t ← peek
  if t.kind = .rightBrace then
    let t ← advance
    pure t.span
  else
    note ((ParseFault.expectedToken .rightBrace context t).at_ t)
    pure t.span

/-- Skips to where parsing can go on, inside of so many blocks opened on the way. -/
def synchronize : Nat → Nat → Walk Unit
  | 0, _ => stray .unfinished
  | n + 1, depth => do
    let t ← peek
    match t.kind with
    | .eof => pure ()
    | .semicolon =>
      let _ ← advance
      if depth = 0 then pure () else synchronize n depth
    | .leftBrace =>
      let _ ← advance
      synchronize n (depth + 1)
    | .rightBrace =>
      match depth with
      | 0 => pure ()
      | 1 =>
        let _ ← advance
        pure ()
      | d + 2 =>
        let _ ← advance
        synchronize n (d + 1)
    | kind =>
      if depth = 0 && kind.beginsStatement then pure ()
      else
        let _ ← advance
        synchronize n depth

def position : Walk Nat := do
  let s ← get
  pure s.current

/-- Where nothing was taken since `before`, a token is dropped. -/
def recover (n before : Nat) : Walk Unit := do
  synchronize n 0
  let now ← position
  if now = before then
    let _ ← advance
    pure ()
  else pure ()

def endTurn (before : Nat) : Walk Unit :=
  modify fun s => { s with turns := s.turns ++ [(before, s.current)] }

def turn (n : Nat) (x : Walk α) : Walk (Option α) := do
  let before ← position
  match ← attempt x with
  | .ok a =>
    endTurn before
    pure (some a)
  | .error _ =>
    recover n before
    endTurn before
    pure none

theorem run_bind (x : Walk α) (f : α → Walk β) (s : Cursor) : (x >>= f).run.run s =
    match x.run.run s with
    | .ok (.ok a, s') => (f a).run.run s'
    | .ok (.error e, s') => .ok (.error e, s')
    | .error e => .error e := by
  rw [ExceptT.run_bind, StateT.run_bind]
  show _ = match x.run.run s with | .ok (.ok a, s') => _ | .ok (.error e, s') => _ | .error e => _
  rcases StateT.run x.run s with _ | ⟨_ | _, _⟩ <;> rfl

end Walk

structure Extent where
  tokens : Array Token
  body : List Token
  fin : Token
  starts : body ++ [fin] <+: tokens.toList
  inner : ∀ t ∈ body, t.kind ≠ .eof
  closes : fin.kind = .eof

namespace Extent

variable {X : Extent} {ss rest : List Token} {t : Token}

def cursor (X : Extent) (ss : List Token) (notes : List Diagnostic) (turns : List (Nat × Nat)) :
    Cursor :=
  ⟨X.tokens, X.body.length - ss.length, notes, turns⟩

theorem getElem?_cursor (h : ss <:+ X.body) :
    X.tokens[X.body.length - ss.length]? = some (ss.headD X.fin) := by
  obtain ⟨taken, htaken⟩ := h
  have hlen : X.body.length - ss.length = taken.length := by
    rw [← htaken, List.length_append]
    omega
  obtain ⟨later, hlater⟩ := X.starts
  rw [hlen, ← Array.getElem?_toList, ← hlater, ← htaken]
  cases ss <;> simp

theorem fin_ne {kind : TokenKind} (h : kind ≠ .eof) : X.fin.kind ≠ kind :=
  fun hfin => h (hfin.symm.trans X.closes)

/-- Behind a token the position is the next one. -/
theorem current_tail (h : t :: rest <:+ X.body) :
    X.body.length - (t :: rest).length + 1 = X.body.length - rest.length := by
  have := h.length_le
  rw [List.length_cons] at this ⊢
  omega

/-- A walk from in front of `ss` comes to `rest` with more complaints, and no turn on the way ends
where it began. -/
def Reaches {α : Type} (X : Extent) (notes : List Diagnostic) (ss : List Token) (x : Walk α)
    (outcome : Except Unit α) (rest : List Token) (notes' : List Diagnostic) : Prop :=
  ∀ earlier turns, ∃ more, x.run.run (X.cursor ss (earlier ++ notes) turns) =
      .ok (outcome, X.cursor rest (earlier ++ notes') (turns ++ more)) ∧
    ∀ turn ∈ more, turn.1 < turn.2

def Tracks {α : Type} {ts : List Token} (X : Extent) (notes : List Diagnostic) (ss : List Token)
    (x : Walk α) (r : Reply α ts) : Prop :=
  ss <:+ X.body →
    match r with
    | .done a rest notes' _ => rest <:+ X.body ∧ X.Reaches notes ss x (.ok a) rest notes'
    | .gaveUp moved rest notes' _ => rest <:+ X.body ∧ (moved = false → rest = ts) ∧
      X.Reaches notes ss x (.error ()) rest notes'

end Extent

open Extent

/-! Walks that reach. -/

section

variable {α β : Type} {X : Extent} {ss ts us rest : List Token} {t : Token}
  {notes notes' notes'' : List Diagnostic} {x : Walk α} {f : α → Walk β} {a : α}

namespace Extent.Reaches

theorem pure (a : α) : X.Reaches notes ss (Pure.pure a) (.ok a) ss notes :=
  fun _ turns => ⟨[], by rw [List.append_nil]; rfl, by simp⟩

theorem giveUp : X.Reaches notes ss (Walk.giveUp : Walk α) (.error ()) ss notes :=
  fun _ turns => ⟨[], by rw [List.append_nil]; rfl, by simp⟩

theorem note (d : Diagnostic) : X.Reaches notes ss (Walk.note d) (.ok ()) ss (notes ++ [d]) :=
  fun earlier turns => ⟨[], by rw [List.append_nil, ← List.append_assoc]; rfl, by simp⟩

theorem peek (h : ss <:+ X.body) :
    X.Reaches notes ss Walk.peek (.ok (ss.headD X.fin)) ss notes := by
  intro earlier turns
  refine ⟨[], ?_, by simp⟩
  rw [List.append_nil]
  unfold Walk.peek
  rw [Walk.run_bind]
  show ((match X.tokens[X.body.length - ss.length]? with
    | some t => Pure.pure t
    | none => Walk.stray .outside : Walk Token).run.run _) = _
  rw [getElem?_cursor h]
  rfl

theorem bind {outcome : Except Unit β} (hx : X.Reaches notes ss x (.ok a) ts notes')
    (hf : X.Reaches notes' ts (f a) outcome rest notes'') :
    X.Reaches notes ss (x >>= f) outcome rest notes'' := by
  intro earlier turns
  obtain ⟨more, hrun, hmore⟩ := hx earlier turns
  obtain ⟨later, hlater, hturns⟩ := hf earlier (turns ++ more)
  refine ⟨more ++ later, ?_, fun turn hturn => ?_⟩
  · rw [Walk.run_bind, hrun, ← List.append_assoc]
    exact hlater
  · exact (List.mem_append.mp hturn).elim (hmore turn) (hturns turn)

theorem bind_error (hx : X.Reaches notes ss x (.error ()) rest notes') :
    X.Reaches notes ss (x >>= f) (.error ()) rest notes' := by
  intro earlier turns
  obtain ⟨more, hrun, hmore⟩ := hx earlier turns
  exact ⟨more, by rw [Walk.run_bind, hrun], hmore⟩

theorem after {outcome : Except Unit α} (hx : X.Reaches [] ss x outcome rest notes')
    (notes : List Diagnostic) : X.Reaches notes ss x outcome rest (notes ++ notes') := by
  intro earlier turns
  obtain ⟨more, hrun, hmore⟩ := hx (earlier ++ notes) turns
  rw [List.append_nil] at hrun
  exact ⟨more, by rw [← List.append_assoc]; exact hrun, hmore⟩

theorem advance (h : t :: rest <:+ X.body) :
    X.Reaches notes (t :: rest) Walk.advance (.ok t) rest notes := by
  refine (peek h).bind ?_
  rw [List.headD_cons, if_neg (X.inner t (h.subset List.mem_cons_self))]
  intro earlier turns
  refine ⟨[], ?_, by simp⟩
  rw [List.append_nil, cursor, cursor, ← current_tail h]
  rfl

/-- At the end mark a walk stays. -/
theorem advance_nil : X.Reaches notes [] Walk.advance (.ok X.fin) [] notes := by
  refine (peek List.nil_suffix).bind ?_
  rw [List.headD_nil, if_pos X.closes]
  exact pure X.fin

theorem fail (h : ss <:+ X.body) (fault : ParseFault) :
    X.Reaches notes ss (Walk.fail fault : Walk α) (.error ()) ss
      (notes ++ [fault.at_ (ss.headD X.fin)]) :=
  (peek h).bind ((note _).bind giveUp)

theorem position : X.Reaches notes ss Walk.position (.ok (X.body.length - ss.length)) ss notes :=
  fun _ turns => ⟨[], by rw [List.append_nil]; rfl, by simp⟩

/-- A turn that takes a token is one to note. -/
theorem endTurn (h : Shorter ss ts) (hts : ts <:+ X.body) :
    X.Reaches notes ss (Walk.endTurn (X.body.length - ts.length)) (.ok ()) ss notes := by
  intro earlier turns
  refine ⟨[(X.body.length - ts.length, X.body.length - ss.length)], rfl, ?_⟩
  have := hts.length_le
  simp only [List.mem_singleton, forall_eq]
  omega

/-- Which way a walk comes to an end, another goes on behind it. -/
theorem attempt {outcome : Except Unit α} (hx : X.Reaches notes ss x outcome rest notes') :
    X.Reaches notes ss (Walk.attempt x) (.ok outcome) rest notes' := by
  intro earlier turns
  obtain ⟨more, hrun, hmore⟩ := hx earlier turns
  refine ⟨more, ?_, hmore⟩
  unfold Walk.attempt
  rw [ExceptT.run_mk, StateT.run_map, hrun]
  rfl

end Extent.Reaches

/-! Walks that do what replies tell. -/

namespace Extent.Tracks

variable {r : Reply α ts} {r' : Reply β us}

theorem done (a : α) (h : Shorter ss ts) :
    X.Tracks notes ss (Pure.pure a) (.done a ss notes h : Reply α ts) :=
  fun hss => ⟨hss, .pure a⟩

theorem fail (fault : ParseFault) :
    X.Tracks [] ts (Walk.fail fault : Walk α) (.fail fault X.fin ts) :=
  fun hss => ⟨hss, fun _ => rfl, .fail hss fault⟩

theorem after (hx : X.Tracks [] ss x r) (notes : List Diagnostic) :
    X.Tracks notes ss x (r.after notes) := by
  intro hss
  cases r with
  | done a rest more hs => exact ⟨(hx hss).1, (hx hss).2.after notes⟩
  | gaveUp moved rest more hs => exact ⟨(hx hss).1, (hx hss).2.1, (hx hss).2.2.after notes⟩

/-- Behind what a walk has reached. -/
theorem behind (hx : X.Reaches notes ss x (.ok a) rest notes') (hrest : rest <:+ X.body)
    (hf : X.Tracks notes' rest (f a) r') : X.Tracks notes ss (x >>= f) r' := by
  intro _
  have h := hf hrest
  cases r' with
  | done b rest' more hs => exact ⟨h.1, hx.bind h.2⟩
  | gaveUp moved rest' more hs => exact ⟨h.1, h.2.1, hx.bind h.2.2⟩

/-- Only walks over tokens of the extent count. -/
theorem given (hx : ss <:+ X.body → X.Tracks notes ss x r) : X.Tracks notes ss x r :=
  fun hss => hx hss hss

theorem peek {f : Token → Walk β} (hf : X.Tracks notes ss (f (ss.headD X.fin)) r') :
    X.Tracks notes ss (Walk.peek >>= f) r' :=
  fun hss => behind (.peek hss) hss hf hss

theorem advance {f : Token → Walk β} (hf : X.Tracks notes rest (f t) r') :
    X.Tracks notes (t :: rest) (Walk.advance >>= f) r' :=
  fun hss => behind (.advance hss) (Parser.suffix_tail hss) hf hss

theorem noteWhen {f : Unit → Walk β} (c : Bool) (d : Diagnostic)
    (hf : X.Tracks (notes ++ if c then [d] else []) ss (f ()) r') :
    X.Tracks notes ss (Walk.noteWhen c d >>= f) r' := by
  intro hss
  refine behind ?_ hss hf hss
  cases c with
  | false => rw [if_neg Bool.false_ne_true, List.append_nil]; exact .pure ()
  | true => exact .note d

theorem bind_done {hs : Shorter rest ts}
    (hx : X.Tracks notes ss x (.done a rest notes' hs : Reply α ts))
    (hf : X.Tracks notes' rest (f a) r') : X.Tracks notes ss (x >>= f) r' :=
  fun hss => behind (hx hss).2 (hx hss).1 hf hss

theorem bind_gaveUp {moved : Bool} {hs : rest.length + moved.toNat ≤ ts.length}
    (hx : X.Tracks notes ss x (.gaveUp moved rest notes' hs : Reply α ts)) :
    X.Tracks notes ss (x >>= f) (.gaveUp moved rest notes' hs : Reply β ts) :=
  fun hss => ⟨(hx hss).1, (hx hss).2.1, (hx hss).2.2.bind_error⟩

theorem bind_moved {moved : Bool} {hs : rest.length + moved.toNat ≤ ts.length}
    {hs' : rest.length + true.toNat ≤ us.length}
    (hx : X.Tracks notes ss x (.gaveUp moved rest notes' hs : Reply α ts)) :
    X.Tracks notes ss (x >>= f) (.gaveUp true rest notes' hs' : Reply β us) :=
  fun hss => ⟨(hx hss).1, Bool.noConfusion, (hx hss).2.2.bind_error⟩

/-- After the first part of a construct, which fails where the whole fails. -/
theorem first {r' : Reply β ts} (hx : X.Tracks notes ss x r)
    (hf : ∀ a rest more hs, r = .done a rest more hs → X.Tracks more rest (f a) r')
    (hr : ∀ moved rest more hs, r = .gaveUp moved rest more hs →
      r' = .gaveUp moved rest more hs) : X.Tracks notes ss (x >>= f) r' := by
  cases r with
  | done a rest more hs => exact hx.bind_done (hf a rest more hs rfl)
  | gaveUp moved rest more hs =>
    rw [hr moved rest more hs rfl]
    exact hx.bind_gaveUp

/-- After a later part, with the complaints of those before it. -/
theorem onward (hx : X.Tracks [] ss x r)
    (hf : ∀ a rest more hs, r = .done a rest more hs → X.Tracks (notes ++ more) rest (f a) r')
    (hr : ∀ moved rest more hs, r = .gaveUp moved rest more hs →
      ∃ hs', r' = .gaveUp true rest (notes ++ more) hs') : X.Tracks notes ss (x >>= f) r' := by
  cases r with
  | done a rest more hs => exact (hx.after notes).bind_done (hf a rest more hs rfl)
  | gaveUp moved rest more hs =>
    obtain ⟨hs', hr⟩ := hr moved rest more hs rfl
    rw [hr]
    exact (hx.after notes).bind_moved

theorem start {g : (a : α) → (rest : List Token) → Shorter rest ts → Reply β ts}
    (hx : X.Tracks [] ss x r)
    (hf : ∀ a rest hs, X.Tracks [] rest (f a) (g a rest hs)) :
    X.Tracks [] ss (x >>= f) (r.start g) := by
  cases r with
  | done a rest more hs => exact hx.bind_done ((hf a rest hs).after more)
  | gaveUp moved rest more hs => exact hx.bind_gaveUp

theorem next {hs : Shorter ts us}
    {g : (a : α) → (rest : List Token) → Shorter rest us → Reply β us} (hx : X.Tracks [] ss x r)
    (hf : ∀ a rest hr, Shorter rest ts → X.Tracks [] rest (f a) (g a rest hr)) :
    X.Tracks [] ss (x >>= f) (r.next hs g) := by
  cases r with
  | done a rest more hr => exact hx.bind_done ((hf a rest _ hr).after more)
  | gaveUp moved rest more hr => exact hx.bind_moved

theorem last {hs : Shorter ts us} (hx : X.Tracks [] ss x r) : X.Tracks [] ss x (r.last hs) := by
  intro hss
  cases r with
  | done a rest more hr => exact hx hss
  | gaveUp moved rest more hr => exact ⟨(hx hss).1, Bool.noConfusion, (hx hss).2.2⟩

end Extent.Tracks

end

/-! Single tokens. -/

namespace Walk

variable {X : Extent} {ss ts rest : List Token} {t : Token} {kind : TokenKind} {context : String}

/-- A token that is there is taken without a look at it. -/
theorem advance_tracks (h : t.kind = kind) :
    X.Tracks [] (t :: rest) advance (Parser.expect kind context X.fin (t :: rest)) := by
  rw [Parser.expect, if_pos h]
  exact fun hss => ⟨Parser.suffix_tail hss, .advance hss⟩

theorem consume_tracks (hkind : kind ≠ .eof) :
    X.Tracks [] ts (consume kind context) (Parser.expect kind context X.fin ts) := by
  refine .peek ?_
  cases ts with
  | nil =>
    rw [List.headD_nil, if_neg (fin_ne hkind)]
    exact .fail _
  | cons t rest =>
    rw [List.headD_cons]
    split
    · next h => exact advance_tracks h
    · next h =>
      rw [Parser.expect, if_neg h]
      exact .fail _

theorem identifier_tracks :
    X.Tracks [] ts (identifier context) (Parser.identifier context X.fin ts) := by
  refine .peek ?_
  cases ts with
  | nil =>
    rw [List.headD_nil, if_neg (fin_ne (by decide))]
    exact .fail _
  | cons t rest =>
    rw [List.headD_cons, Parser.identifier]
    split
    · exact fun hss => ⟨Parser.suffix_tail hss, .advance hss⟩
    · exact .fail _

theorem memberName_tracks : X.Tracks [] ts memberName (Parser.memberName X.fin ts) := by
  refine .peek ?_
  cases ts with
  | nil =>
    rw [List.headD_nil, X.closes]
    exact .fail _
  | cons t rest =>
    rw [List.headD_cons, Parser.memberName]
    split
    · exact fun hss => ⟨Parser.suffix_tail hss, .advance hss⟩
    · exact .fail _

theorem closeBrace_nil {notes : List Diagnostic} :
    X.Reaches notes [] (closeBrace context) (.ok X.fin.span) []
      (notes ++ [(ParseFault.expectedToken .rightBrace context X.fin).at_ X.fin]) := by
  refine (Reaches.peek List.nil_suffix).bind ?_
  rw [List.headD_nil, if_neg (fin_ne (by decide))]
  exact (Reaches.note _).bind (.pure _)

theorem closeBrace_cons {notes : List Diagnostic} (h : t.kind = .rightBrace)
    (hss : t :: rest <:+ X.body) :
    X.Reaches notes (t :: rest) (closeBrace context) (.ok t.span) rest notes := by
  refine (Reaches.peek hss).bind ?_
  rw [List.headD_cons, if_pos h]
  exact (Reaches.advance hss).bind (.pure _)

/-! Recovery. -/

theorem synchronize_reaches {notes : List Diagnostic} (n depth : Nat) (h : ss.length < n)
    (hss : ss <:+ X.body) :
    X.Reaches notes ss (synchronize n depth) (.ok ()) (Parser.synchronize depth ss) notes := by
  induction n generalizing depth ss with
  | zero => exact absurd h (Nat.not_lt_zero _)
  | succ n ih =>
    refine (Reaches.peek hss).bind ?_
    cases ss with
    | nil =>
      simp only [List.headD_nil, X.closes]
      exact .pure ()
    | cons t ts =>
      have hts := Parser.suffix_tail hss
      have htaken : X.Reaches notes (t :: ts) advance (.ok t) ts notes := .advance hss
      have go (depth : Nat) : X.Reaches notes ts (synchronize n depth) (.ok ())
          (Parser.synchronize depth ts) notes := ih depth (Nat.lt_of_succ_lt_succ h) hts
      rw [List.headD_cons]
      unfold Parser.synchronize
      have hkind := X.inner t (hss.subset List.mem_cons_self)
      generalize t.kind = kind at hkind
      cases kind with
      | eof => exact absurd rfl hkind
      | semicolon =>
        refine htaken.bind ?_
        dsimp only
        split
        · exact .pure ()
        · exact go depth
      | leftBrace => exact htaken.bind (go (depth + 1))
      | rightBrace =>
        rcases depth with _ | _ | d
        · exact .pure ()
        · exact htaken.bind (.pure ())
        · exact htaken.bind (go (d + 1))
      | _ =>
        dsimp only
        split
        · exact .pure ()
        · exact htaken.bind (go depth)

end Walk

namespace Parser

variable {t : Token} {ts : List Token}

theorem recover_true (rest : List Token) : recover true rest = synchronize 0 rest := by
  cases rest <;> rfl

/-- A token is dropped just where skipping stays in front of it. -/
theorem recover_false (t : Token) (ts : List Token) : recover false (t :: ts) =
    if (synchronize 0 (t :: ts)).length = (t :: ts).length then ts
    else synchronize 0 (t :: ts) := by
  have hshorter := length_recover_stuck t ts
  simp only [recover, Bool.not_false, Bool.true_and] at hshorter ⊢
  split
  · next h =>
    have hstays : synchronize 0 (t :: ts) = t :: ts := by
      unfold synchronize
      generalize t.kind = kind at h
      cases kind with
      | semicolon | leftBrace => cases h
      | rightBrace => rfl
      | _ => exact if_pos (by simpa using h)
    rw [hstays, if_pos rfl]
  · next h =>
    rw [if_neg h] at hshorter
    rw [if_neg (Nat.ne_of_lt hshorter)]

end Parser

namespace Walk

variable {X : Extent} {ts rest : List Token} {moved : Bool} {notes : List Diagnostic}

/-- What is taken before a failure, or none of it, tells whether a token is to be dropped. -/
theorem recover_reaches {n : Nat} (hn : rest.length < n) (hts : ts <:+ X.body)
    (hrest : rest <:+ X.body) (hbound : rest.length + moved.toNat ≤ ts.length)
    (hmoved : moved = false → rest = ts) :
    X.Reaches notes rest (recover n (X.body.length - ts.length)) (.ok ())
      (Parser.recover moved rest) notes := by
  refine (synchronize_reaches n 0 hn hrest).bind (Reaches.position.bind ?_)
  have hmid := Parser.synchronize_suffix 0 rest
  have hle := hts.length_le
  have hle' := hmid.length_le
  cases moved with
  | true =>
    rw [Bool.toNat_true] at hbound
    rw [Parser.recover_true, if_neg (by omega)]
    exact .pure ()
  | false =>
    cases hmoved rfl
    cases ts with
    | nil =>
      rw [Parser.synchronize, if_pos rfl]
      exact Reaches.advance_nil.bind (.pure ())
    | cons t ts =>
      rw [Parser.recover_false]
      by_cases h : (Parser.synchronize 0 (t :: ts)).length = (t :: ts).length
      · rw [if_pos h, if_pos (by rw [h]), hmid.eq_of_length h]
        exact (Reaches.advance hrest).bind (.pure ())
      · rw [if_neg h, if_neg (by omega)]
        exact .pure ()

/-! Turns. -/

variable {α β : Type} {t : Token} {n : Nat} {x : Walk α} {a : α} {more : List Diagnostic}

/-- A turn that reads something. -/
theorem turn_done {hs : Shorter rest (t :: ts)}
    (hx : X.Tracks [] (t :: ts) x (.done a rest more hs)) (hss : t :: ts <:+ X.body) :
    X.Reaches notes (t :: ts) (turn n x) (.ok (some a)) rest (notes ++ more) :=
  Reaches.position.bind (((hx hss).2.after notes).attempt.bind
    ((Reaches.endTurn hs hss).bind (.pure (some a))))

/-- A turn that reads nothing takes a token all the same. -/
theorem turn_gaveUp {hs : rest.length + moved.toNat ≤ (t :: ts).length}
    (hn : (t :: ts).length < n) (hx : X.Tracks [] (t :: ts) x (.gaveUp moved rest more hs))
    (hss : t :: ts <:+ X.body) : X.Reaches notes (t :: ts) (turn n x) (.ok none)
      (Parser.recover moved rest) (notes ++ more) := by
  obtain ⟨hrest, hmoved, hx⟩ := hx hss
  have hlt : rest.length < n := by omega
  exact Reaches.position.bind ((hx.after notes).attempt.bind
    ((recover_reaches hlt hss hrest hs hmoved).bind
      ((Reaches.endTurn (Parser.recover_shorter hs) hss).bind (.pure none))))

/-- After a turn, with the complaints so far in reverse. -/
theorem turn_tracks {us : List Token} {f : Option α → Walk β} {r : Reply α (t :: ts)}
    {r' : Reply β us} (hn : (t :: ts).length < n) (hx : X.Tracks [] (t :: ts) x r)
    (hdone : ∀ a rest more hs, r = .done a rest more hs →
      X.Tracks (more.reverse ++ notes).reverse rest (f (some a)) r')
    (hgaveUp : ∀ moved rest more hs, r = .gaveUp moved rest more hs →
      X.Tracks (more.reverse ++ notes).reverse (Parser.recover moved rest) (f none) r') :
    X.Tracks notes.reverse (t :: ts) (turn n x >>= f) r' := by
  intro hss
  simp only [List.reverse_append, List.reverse_reverse] at hdone hgaveUp
  cases r with
  | done a rest more hs =>
    exact Tracks.behind (turn_done hx hss) (hx hss).1 (hdone a rest more hs rfl) hss
  | gaveUp moved rest more hs =>
    have hrecover := (Parser.recover_suffix moved rest).trans (hx hss).1
    exact Tracks.behind (turn_gaveUp hn hx hss) hrecover (hgaveUp moved rest more hs rfl) hss

end Walk

end Lss
