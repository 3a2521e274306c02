import Lss.Proofs.Walked

/-!
# Expressions by position

Every level of the grammar of expressions is a walk, and it does what the parser's reply tells: it
takes the same tokens, gives the same tree, has the same complaints and gives up in the same places.
-/
namespace Lss

open Extent

open Lss.Parser (applyUnary isLiteral rightFloor)

namespace Walk

mutual

def expression : Nat → Walk Expr
  | 0 => stray .unfinished
  | n + 1 => binary n 1

def binary : Nat → Nat → Walk Expr
  | 0, _ => stray .unfinished
  | n + 1, floor => do
    let left ← unary n
    binaryTail n floor left

def binaryTail : Nat → Nat → Expr → Walk Expr
  | 0, _, _ => stray .unfinished
  | n + 1, floor, left => do
    let t ← peek
    match t.kind with
    | .binary op =>
      if op.precedence < floor then pure left
      else
        let t ← advance
        let right ← binary n (rightFloor op)
        binaryTail n floor (.binary left t right)
    | _ => pure left

def unary : Nat → Walk Expr
  | 0 => stray .unfinished
  | n + 1 => do
    let t ← peek
    match t.kind with
    | .binary .sub | .bang | .tilde =>
      let t ← advance
      let e ← unary n
      pure (applyUnary t e)
    | _ => trailing n

def trailing : Nat → Walk Expr
  | 0 => stray .unfinished
  | n + 1 => do
    let e ← primary n
    trailingTail n e

def trailingTail : Nat → Expr → Walk Expr
  | 0, _ => stray .unfinished
  | n + 1, e => do
    let t ← peek
    match t.kind with
    | .access .member =>
      let t ← advance
      let name ← memberName
      trailingTail n (.binary e t (.variable name))
    | .access .scope =>
      let t ← advance
      let name ← identifier "after '::'"
      trailingTail n (.binary e t (.variable name))
    | .access .dynamicMember | .access .dynamicScope =>
      let t ← advance
      let name ← primary n
      trailingTail n (.binary e t name)
    | .leftBracket =>
      let _ ← advance
      let (i, close) ← closed n .rightBracket "after index"
      trailingTail n (.index e i (e.span + close.span))
    | .leftParen =>
      let _ ← advance
      let (es, close) ← arguments n .rightParen "after arguments"
      trailingTail n (.call e es (e.span + close.span))
    | _ => pure e

def primary : Nat → Walk Expr
  | 0 => stray .unfinished
  | n + 1 => do
    let t ← peek
    match t.kind with
    | .identifier | .keyword .this =>
      let t ← advance
      pure (.variable t)
    | .leftParen =>
      let _ ← advance
      let inner ← closed n .rightParen "after expression"
      pure (.grouping inner.1)
    | .leftBracket =>
      let t ← advance
      let items ← arguments n .rightBracket "after array elements"
      pure (.array items.1 (t.span + items.2.span))
    | .keyword .new => construction n
    | kind =>
      if isLiteral kind then
        let t ← advance
        pure (.literal t)
      else fail .expectedExpression

def construction : Nat → Walk Expr
  | 0 => stray .unfinished
  | n + 1 => do
    let keyword ← advance
    let type ← identifier "after 'new'"
    let t ← peek
    if t.kind = .leftParen then
      let _ ← advance
      let items ← arguments n .rightParen "after constructor arguments"
      pure (.construct type (some items.1) (keyword.span + type.span + items.2.span))
    else pure (.construct type none (keyword.span + type.span))

def closed : Nat → TokenKind → String → Walk (Expr × Token)
  | 0, _, _ => stray .unfinished
  | n + 1, close, context => do
    let e ← expression n
    let mark ← consume close context
    pure (e, mark)

def arguments : Nat → TokenKind → String → Walk (List Expr × Token)
  | 0, _, _ => stray .unfinished
  | n + 1, close, context => do
    let t ← peek
    if t.kind = close then
      let mark ← consume close context
      pure ([], mark)
    else
      let e ← expression n
      argumentsTail n close context [e]

def argumentsTail : Nat → TokenKind → String → List Expr → Walk (List Expr × Token)
  | 0, _, _, _ => stray .unfinished
  | n + 1, close, context, acc => do
    let t ← peek
    if t.kind = .comma then
      let _ ← advance
      let e ← expression n
      argumentsTail n close context (e :: acc)
    else
      noteWhen (close = .rightParen && ParseFault.maxArguments < acc.length)
        (ParseFault.tooManyArguments.at_ t)
      let mark ← consume close context
      pure (acc.reverse, mark)

end

variable {X : Extent}

/-- The end of a list between commas is not where its last complaint stands. -/
theorem finishArguments_tracks {all ts : List Token} {close : TokenKind} (hclose : close ≠ .eof)
    {context : String} {acc : List Expr} {notes : List Diagnostic} {h : Shorter ts all} :
    X.Tracks notes ts (do
      noteWhen (close = .rightParen && ParseFault.maxArguments < acc.length)
        (ParseFault.tooManyArguments.at_ (ts.headD X.fin))
      let mark ← consume close context
      pure (acc.reverse, mark))
      (Parser.finishArguments X.fin close context acc notes ts h) := by
  refine .noteWhen _ _ ?_
  rw [Parser.finishArguments]
  refine Extent.Tracks.after ?_ _
  exact .next (consume_tracks hclose) fun mark rest hr _ => .done _ hr

mutual

theorem expression_tracks : ∀ (n : Nat) (ts : List Token), 8 * ts.length + 5 < n →
    X.Tracks [] ts (expression n) (Parser.expression X.fin ts)
  | n + 1, ts, hn => by
    rw [Parser.expression]
    exact binary_tracks n 1 ts (Nat.lt_of_succ_lt_succ hn)

theorem binary_tracks : ∀ (n floor : Nat) (ts : List Token), 8 * ts.length + 4 < n →
    X.Tracks [] ts (binary n floor) (Parser.binary X.fin floor ts)
  | n + 1, floor, ts, hn => by
    rw [Parser.binary]
    refine .first (unary_tracks n ts (Nat.lt_of_succ_lt_succ hn)) (fun left rest notes h hr => ?_)
      fun _ _ _ _ hr => by rw [hr]
    rw [hr]
    exact binaryTail_tracks n floor left notes rest h (by omega)

theorem binaryTail_tracks {all : List Token} : ∀ (n floor : Nat) (left : Expr)
    (notes : List Diagnostic) (ts : List Token) (h : Shorter ts all), 8 * ts.length < n →
    X.Tracks notes ts (binaryTail n floor left) (Parser.binaryTail X.fin floor left notes ts h)
  | n + 1, floor, left, notes, [], h, hn => by
    refine .peek ?_
    rw [Parser.binaryTail]
    simp only [List.headD_nil, X.closes]
    exact .done left h
  | n + 1, floor, left, notes, t :: rest, h, hn => by
    refine .peek ?_
    rw [Parser.binaryTail, List.headD_cons]
    rw [List.length_cons] at hn
    generalize t.kind = kind
    cases kind with
    | binary op =>
      dsimp only
      split
      · exact .done left h
      · refine .advance (.onward (binary_tracks n (rightFloor op) rest (by omega))
          (fun right rest' more h' hr => ?_) fun _ _ _ _ hr => ⟨_, by rw [hr]⟩)
        rw [hr]
        exact binaryTail_tracks n floor _ _ rest' _ (by omega)
    | _ => exact .done left h

theorem unary_tracks : ∀ (n : Nat) (ts : List Token), 8 * ts.length + 3 < n →
    X.Tracks [] ts (unary n) (Parser.unary X.fin ts)
  | n + 1, [], hn => by
    refine .peek ?_
    rw [Parser.unary]
    simp only [List.headD_nil, X.closes]
    exact trailing_tracks n [] (Nat.lt_of_succ_lt_succ hn)
  | n + 1, t :: rest, hn => by
    refine .peek ?_
    rw [Parser.unary, List.headD_cons]
    have hsigned : X.Tracks [] (t :: rest) (do
        let t ← advance
        let e ← unary n
        pure (applyUnary t e))
        ((Parser.unary X.fin rest).next (.tail t rest) fun e rest' h =>
          .done (applyUnary t e) rest' [] h) :=
      .advance (.next (unary_tracks n rest (by rw [List.length_cons] at hn; omega))
        fun e rest' h _ => .done _ h)
    have hplain := trailing_tracks n (t :: rest) (Nat.lt_of_succ_lt_succ hn)
    generalize t.kind = kind
    cases kind with
    | binary op =>
      cases op with
      | sub => exact hsigned
      | _ => exact hplain
    | bang | tilde => exact hsigned
    | _ => exact hplain

theorem trailing_tracks : ∀ (n : Nat) (ts : List Token), 8 * ts.length + 2 < n →
    X.Tracks [] ts (trailing n) (Parser.trailing X.fin ts)
  | n + 1, ts, hn => by
    rw [Parser.trailing]
    refine .first (primary_tracks n ts (Nat.lt_of_succ_lt_succ hn)) (fun e rest notes h hr => ?_)
      fun _ _ _ _ hr => by rw [hr]
    rw [hr]
    exact trailingTail_tracks n e notes rest h (by omega)

theorem trailingTail_tracks {all : List Token} : ∀ (n : Nat) (e : Expr)
    (notes : List Diagnostic) (ts : List Token) (h : Shorter ts all), 8 * ts.length < n →
    X.Tracks notes ts (trailingTail n e) (Parser.trailingTail X.fin e notes ts h)
  | n + 1, e, notes, [], h, hn => by
    refine .peek ?_
    rw [Parser.trailingTail]
    simp only [List.headD_nil, X.closes]
    exact .done e h
  | n + 1, e, notes, t :: rest, h, hn => by
    refine .peek ?_
    rw [Parser.trailingTail, List.headD_cons]
    rw [List.length_cons] at hn
    -- whatever follows the expression, more may follow that
    have more (e : Expr) (notes : List Diagnostic) (rest' : List Token)
        (h' : Shorter rest' rest) := trailingTail_tracks n e notes rest' (h'.behind h) (by omega)
    generalize t.kind = kind
    cases kind with
    | access op =>
      cases op with
      | member =>
        refine .advance (.onward memberName_tracks (fun name rest' notes' h' hr => ?_)
          fun _ _ _ _ hr => ⟨_, by rw [hr]⟩)
        rw [hr]
        exact more _ _ rest' h'
      | scope =>
        refine .advance (.onward identifier_tracks (fun name rest' notes' h' hr => ?_)
          fun _ _ _ _ hr => ⟨_, by rw [hr]⟩)
        rw [hr]
        exact more _ _ rest' h'
      | dynamicMember | dynamicScope =>
        refine .advance (.onward (primary_tracks n rest (by omega))
          (fun name rest' notes' h' hr => ?_) fun _ _ _ _ hr => ⟨_, by rw [hr]⟩)
        rw [hr]
        exact more _ _ rest' h'
    | leftBracket =>
      refine .advance (.onward (closed_tracks n _ _ (by decide) rest (by omega))
        (fun inner rest' notes' h' hr => ?_) fun _ _ _ _ hr => ⟨_, by rw [hr]⟩)
      rw [hr]
      exact more _ _ rest' h'
    | leftParen =>
      refine .advance (.onward (arguments_tracks n _ _ (by decide) rest (by omega))
        (fun items rest' notes' h' hr => ?_) fun _ _ _ _ hr => ⟨_, by rw [hr]⟩)
      rw [hr]
      exact more _ _ rest' h'
    | _ => exact .done e h

theorem primary_tracks : ∀ (n : Nat) (ts : List Token), 8 * ts.length + 1 < n →
    X.Tracks [] ts (primary n) (Parser.primary X.fin ts)
  | n + 1, [], hn => by
    refine .peek ?_
    rw [Parser.primary]
    simp only [List.headD_nil, X.closes]
    exact .fail _
  | n + 1, t :: rest, hn => by
    refine .peek ?_
    rw [Parser.primary, List.headD_cons]
    rw [List.length_cons] at hn
    have hname : X.Tracks [] (t :: rest) (do
        let t ← advance
        pure (.variable t)) (.done (.variable t) rest [] (.tail t rest) : Reply Expr _) :=
      .advance (.done _ _)
    have hother (kind : TokenKind) : X.Tracks [] (t :: rest) (if isLiteral kind then do
          let t ← advance
          pure (.literal t)
        else fail .expectedExpression)
        (if isLiteral kind then .done (.literal t) rest [] (.tail t rest)
        else .fail .expectedExpression X.fin (t :: rest) : Reply Expr (t :: rest)) := by
      split
      · exact .advance (.done _ _)
      · exact .fail _
    generalize t.kind = kind
    cases kind with
    | identifier => exact hname
    | leftParen =>
      exact .advance (.next (closed_tracks n _ _ (by decide) rest (by omega)) fun inner rest' h _ =>
        .done _ h)
    | leftBracket =>
      exact .advance (.next (arguments_tracks n _ _ (by decide) rest (by omega))
        fun items rest' h _ => .done _ h)
    | keyword k =>
      cases k with
      | this => exact hname
      | new => exact construction_tracks n t rest (by omega)
      | _ => exact hother _
    | _ => exact hother _

theorem construction_tracks : ∀ (n : Nat) (t : Token) (rest : List Token),
    8 * rest.length + 7 < n →
    X.Tracks [] (t :: rest) (construction n)
      ((Parser.construction X.fin t rest).last (.tail t rest))
  | n + 1, t, ts, hn => by
    rw [Parser.construction]
    refine .advance (.last (.start identifier_tracks fun type rest h => .peek ?_))
    cases rest with
    | nil =>
      rw [List.headD_nil, if_neg (fin_ne (by decide))]
      exact .done _ h
    | cons t' rest' =>
      have hlt := h.of_cons
      dsimp only
      rw [List.headD_cons]
      split
      · exact .advance (.next (arguments_tracks n _ _ (by decide) rest' (by omega))
          fun items rest'' h' _ => .done _ h')
      · exact .done _ h

theorem closed_tracks : ∀ (n : Nat) (close : TokenKind) (context : String), close ≠ .eof →
    ∀ ts : List Token, 8 * ts.length + 6 < n →
    X.Tracks [] ts (closed n close context) (Parser.closed X.fin close context ts)
  | n + 1, close, context, hclose, ts, hn => by
    rw [Parser.closed]
    exact .start (expression_tracks n ts (Nat.lt_of_succ_lt_succ hn)) fun e rest h =>
      .next (consume_tracks hclose) fun mark rest' h' _ => .done _ h'

theorem arguments_tracks : ∀ (n : Nat) (close : TokenKind) (context : String), close ≠ .eof →
    ∀ ts : List Token, 8 * ts.length + 6 < n →
    X.Tracks [] ts (arguments n close context) (Parser.arguments X.fin close context ts)
  | n + 1, close, context, hclose, ts, hn => by
    refine .peek ?_
    rw [Parser.arguments, Parser.peek]
    split
    · exact .start (consume_tracks hclose) fun mark rest h => .done _ h
    · refine .first (expression_tracks n ts (Nat.lt_of_succ_lt_succ hn))
        (fun e rest notes h hr => ?_) fun _ _ _ _ hr => by rw [hr]
      rw [hr]
      exact argumentsTail_tracks n close context hclose [e] notes rest h (by omega)

theorem argumentsTail_tracks {all : List Token} : ∀ (n : Nat) (close : TokenKind)
    (context : String), close ≠ .eof → ∀ (acc : List Expr) (notes : List Diagnostic)
    (ts : List Token) (h : Shorter ts all), 8 * ts.length < n →
    X.Tracks notes ts (argumentsTail n close context acc)
      (Parser.argumentsTail X.fin close context acc notes ts h)
  | n + 1, close, context, hclose, acc, notes, [], h, hn => by
    refine .peek ?_
    rw [Parser.argumentsTail, List.headD_nil, if_neg (fin_ne (by decide))]
    exact finishArguments_tracks hclose
  | n + 1, close, context, hclose, acc, notes, t :: rest, h, hn => by
    refine .peek ?_
    rw [Parser.argumentsTail, List.headD_cons]
    rw [List.length_cons] at hn
    split
    · refine .advance (.onward (expression_tracks n rest (by omega))
        (fun e rest' notes' h' hr => ?_) fun _ _ _ _ hr => ⟨_, by rw [hr]⟩)
      rw [hr]
      exact argumentsTail_tracks n close context hclose _ _ rest' _ (by omega)
    · exact finishArguments_tracks hclose

end

end Walk

end Lss
