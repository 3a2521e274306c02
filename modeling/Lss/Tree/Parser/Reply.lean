import Lss.Tree.Parser.Fault

/-!
What a parser gives back. Parsers read a list of tokens that holds no end mark; the mark itself,
`fin`, is passed beside it and only lends its place to complaints. A reply to `ts` says what is left
of them: less on success, and on failure less or, when nothing was taken, at most as much. These
bounds are what makes every loop over replies end.
-/
namespace Lss

abbrev Shorter (ss ts : List Token) : Prop := ss.length < ts.length

namespace Shorter

variable {t : Token} {rest ss ts all : List Token} {moved : Bool}

theorem trans (h : Shorter rest ss) (h' : Shorter ss ts) : Shorter rest ts := Nat.lt_trans h h'

theorem tail (t : Token) (ts : List Token) : Shorter ts (t :: ts) := Nat.lt_succ_self _

theorem of_cons (h : Shorter (t :: ss) ts) : Shorter ss ts := Nat.lt_of_succ_lt h

/-- Behind a token that was taken. -/
theorem behind (h : Shorter rest ts) (h' : Shorter (t :: ts) all) : Shorter rest all :=
  h.trans h'.of_cons

/-- From a token on. -/
theorem within (h : Shorter rest (t :: ts)) (h' : Shorter (t :: ts) all) : Shorter rest all :=
  h.trans h'

/-- A failure further on is one after tokens have been taken. -/
theorem gaveUp (h : Shorter ss ts) (h' : rest.length + moved.toNat ≤ ss.length) :
    rest.length + true.toNat ≤ ts.length :=
  Nat.lt_of_le_of_lt (Nat.le_trans (Nat.le_add_right ..) h') h

theorem gaveUp_behind (h : Shorter (t :: ts) all) (h' : rest.length + moved.toNat ≤ ts.length) :
    rest.length + true.toNat ≤ all.length :=
  h.of_cons.gaveUp h'

theorem moved_tail (t : Token) (ts : List Token) : ts.length + true.toNat ≤ (t :: ts).length :=
  Nat.le_refl _

end Shorter

inductive Reply (α : Type) (ts : List Token) where
  | done (value : α) (rest : List Token) (notes : List Diagnostic) (shorter : Shorter rest ts)
  /-- `moved` tells whether any token was taken before giving up. -/
  | gaveUp (moved : Bool) (rest : List Token) (notes : List Diagnostic)
      (bound : rest.length + moved.toNat ≤ ts.length)

namespace Reply

variable {α β : Type} {ss ts : List Token}

@[inline] def after (notes : List Diagnostic) : Reply α ts → Reply α ts
  | .done a rest more h => .done a rest (notes ++ more) h
  | .gaveUp moved rest more h => .gaveUp moved rest (notes ++ more) h

@[inline] def start (r : Reply α ts)
    (f : (a : α) → (rest : List Token) → Shorter rest ts → Reply β ts) : Reply β ts :=
  match r with
  | .done a rest notes h => (f a rest h).after notes
  | .gaveUp moved rest notes h => .gaveUp moved rest notes h

@[inline] def next (r : Reply α ss) (hs : Shorter ss ts)
    (f : (a : α) → (rest : List Token) → Shorter rest ts → Reply β ts) : Reply β ts :=
  match r with
  | .done a rest notes h => (f a rest (h.trans hs)).after notes
  | .gaveUp _ rest notes h => .gaveUp true rest notes (hs.gaveUp h)

@[inline] def last (r : Reply α ss) (hs : Shorter ss ts) : Reply α ts :=
  match r with
  | .done a rest notes h => .done a rest notes (h.trans hs)
  | .gaveUp _ rest notes h => .gaveUp true rest notes (hs.gaveUp h)

def fail (fault : ParseFault) (fin : Token) (ts : List Token) : Reply α ts :=
  .gaveUp false ts [fault.at_ (ts.headD fin)] (Nat.le_refl _)

end Reply

namespace Parser

def peek (fin : Token) (ts : List Token) : TokenKind := (ts.headD fin).kind

def expect (kind : TokenKind) (context : String) (fin : Token) (ts : List Token) :
    Reply Token ts :=
  match ts with
  | t :: rest =>
    if t.kind = kind then .done t rest [] (.tail t rest)
    else .fail (.expectedToken kind context t) fin (t :: rest)
  | [] => .fail (.expectedToken kind context fin) fin []

def identifier (context : String) (fin : Token) (ts : List Token) : Reply Token ts :=
  match ts with
  | t :: rest =>
    if t.kind = .identifier then .done t rest [] (.tail t rest)
    else .fail (.expectedIdentifier context t) fin (t :: rest)
  | [] => .fail (.expectedIdentifier context fin) fin []

/-- The name behind a point; properties of all values are names there. -/
def memberName (fin : Token) (ts : List Token) : Reply Token ts :=
  match ts with
  | t :: rest =>
    if t.kind = .identifier || t.kind.isProperty then .done t rest [] (.tail t rest)
    else .fail .expectedMember fin (t :: rest)
  | [] => .fail .expectedMember fin []

/-- Skips to where parsing can go on: behind a semicolon, before a keyword that begins a statement,
before the brace that closes the scope, or behind one that closes a block opened on the way. -/
def synchronize (depth : Nat) : List Token → List Token
  | [] => []
  | t :: ts =>
    match t.kind with
    | .semicolon => if depth = 0 then ts else synchronize depth ts
    | .leftBrace => synchronize (depth + 1) ts
    | .rightBrace =>
      match depth with
      | 0 => t :: ts
      | 1 => ts
      | d + 2 => synchronize (d + 1) ts
    | kind =>
      if depth = 0 && kind.beginsStatement then t :: ts else synchronize depth ts

theorem length_synchronize (depth : Nat) (ts : List Token) :
    (synchronize depth ts).length ≤ ts.length := by
  fun_induction synchronize depth ts <;> simp_all <;> omega

/-- Where to go on after a failure that left `rest`. At least one token is dropped in all, unless
none is left. -/
def recover (moved : Bool) (rest : List Token) : List Token :=
  match rest with
  | [] => []
  | t :: ts =>
    if !moved && (t.kind = .rightBrace || t.kind.beginsStatement) then ts
    else synchronize 0 (t :: ts)

theorem length_recover_moved (rest : List Token) : (recover true rest).length ≤ rest.length := by
  cases rest with
  | nil => simp [recover]
  | cons t ts => simpa [recover] using length_synchronize 0 (t :: ts)

theorem length_recover_stuck (t : Token) (ts : List Token) :
    (recover false (t :: ts)).length < (t :: ts).length := by
  simp only [recover, Bool.not_false, Bool.true_and]
  split
  · simp
  · next h =>
    simp only [Bool.or_eq_true, decide_eq_true_eq, not_or, Bool.not_eq_true] at h
    unfold synchronize
    have := length_synchronize
    split
    · simp
    · exact Nat.lt_succ_of_le (this 1 ts)
    · next hk => exact absurd hk h.1
    · simp only [h.2, Bool.and_false, Bool.false_eq_true, if_false, List.length_cons]
      exact Nat.lt_succ_of_le (this 0 ts)

variable {moved : Bool} {t : Token} {rest ts all : List Token}

/-- After a failure fewer tokens are left than before. -/
theorem recover_shorter (h : rest.length + moved.toNat ≤ (t :: ts).length) :
    Shorter (recover moved rest) (t :: ts) := by
  cases moved with
  | true =>
    have := length_recover_moved rest
    exact Nat.lt_of_le_of_lt this h
  | false =>
    cases rest with
    | nil => simp [recover]
    | cons r rs => exact Nat.lt_of_lt_of_le (length_recover_stuck r rs) h

theorem recover_within (h : rest.length + moved.toNat ≤ (t :: ts).length)
    (h' : Shorter (t :: ts) all) : Shorter (recover moved rest) all :=
  (recover_shorter h).trans h'

end Parser

end Lss
