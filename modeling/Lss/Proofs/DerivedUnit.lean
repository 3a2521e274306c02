import Lss.Proofs.DerivedExpr

/-!
# What is read is derived: statements, declarations, units

Every unit that is read without complaint has a derivation in which each `else` belongs to the
nearest `if`.
-/
namespace Lss

namespace Parser

open Grammar

variable {fin : Token} {ts rest : List Token}

/-! Statements. -/

def DerivesStmt (ts : List Token) (s : Stmt) (rest : List Token) : Prop :=
  Statement True ts s rest ∧ (s.dangles → NoElse rest)

theorem DerivesStmt.closed {s : Stmt} (hs : s.dangles = false) (h : Statement True ts s rest) :
    DerivesStmt ts s rest := by
  refine ⟨h, fun hd => ?_⟩
  rw [hs] at hd
  cases hd

theorem varStatement_sound {keyword : Token} (hk : keyword.kind = .keyword .var) :
    (varStatement fin ts).Sound (DerivesStmt (keyword :: ts)) := by
  unfold varStatement
  apply Reply.Sound.start identifier_sound
  rintro name rest hr ⟨hname, rfl⟩
  have bare (rest' : List Token) (hr' : Shorter rest' (name :: rest)) (hrest : rest = rest') :
      ((expect .semicolon "after variable declaration" fin rest').next hr' fun _ rest hr =>
        Reply.done (Stmt.var name none) rest [] hr).Sound
        (DerivesStmt (keyword :: name :: rest)) := by
    apply Reply.Sound.next expect_sound
    rintro mark rest'' _ ⟨hmark, rfl⟩ -
    rw [hrest]
    exact .closed rfl (.var hk hname hmark)
  simp only
  split
  · exact bare [] _ rfl
  · next t rest _ =>
    split
    · next heq =>
      apply Reply.Sound.next (expression_sound fin rest)
      intro e rest' hr' he
      apply Reply.Sound.next expect_sound
      rintro mark rest'' _ ⟨hmark, rfl⟩ -
      exact .closed rfl (.varInit hk hname heq hmark he)
    · exact bare (t :: rest) _ rfl

theorem returnStatement_sound {keyword : Token} (hk : keyword.kind = .keyword .return_) :
    (returnStatement fin keyword ts).Sound (DerivesStmt (keyword :: ts)) := by
  unfold returnStatement
  split
  · apply Reply.Sound.start expect_sound
    rintro mark rest' _ ⟨hmark, rfl⟩ -
    exact .closed rfl (.return_ hk hmark)
  · apply Reply.Sound.start (expression_sound fin ts)
    intro e rest hr he
    apply Reply.Sound.next expect_sound
    rintro mark rest' _ ⟨hmark, rfl⟩ -
    exact .closed rfl (.returnValue hk hmark he)

theorem expressionStatement_sound : (expressionStatement fin ts).Sound (DerivesStmt ts) := by
  unfold expressionStatement
  apply Reply.Sound.start (expression_sound fin ts)
  intro e rest hr he
  have bare (rest' : List Token) (hr' : Shorter rest' ts) (hrest : rest = rest') :
      ((expect .semicolon "after expression" fin rest').next hr' fun _ rest hr =>
        Reply.done (Stmt.expr e) rest [] hr).Sound (DerivesStmt ts) := by
    apply Reply.Sound.next expect_sound
    rintro mark rest'' _ ⟨hmark, rfl⟩ -
    rw [hrest] at he
    exact .closed rfl (.expr hmark he)
  simp only
  split
  · next hr => exact bare [] hr rfl
  · next t rest hr =>
    split
    · next heq =>
      apply Reply.Sound.next (expression_sound fin rest)
      intro value rest' hr' hv
      apply Reply.Sound.next expect_sound
      rintro mark rest'' _ ⟨hmark, rfl⟩ -
      exact .closed rfl (.assign heq hmark he hv)
    · exact bare (t :: rest) hr rfl

def Guarded (ts : List Token) (e : Expr) (rest : List Token) : Prop :=
  ∃ left ms right, left.kind = .leftParen ∧ right.kind = .rightParen ∧ ts = left :: ms ∧
    Expression True ms e (right :: rest)

theorem parenthesized_sound {opening closing : String} :
    (parenthesized opening closing fin ts).Sound (Guarded ts) := by
  unfold parenthesized
  apply Reply.Sound.start expect_sound
  rintro left rest hr ⟨hleft, rfl⟩
  apply Reply.Sound.next (closed_sound fin .rightParen closing rest)
  rintro x rest' _ ⟨hright, hx⟩ -
  exact ⟨left, rest, x.2, hleft, hright, rfl, hx⟩

theorem iteration_sound : (iteration fin ts).Sound fun x rest =>
    ∃ left in_ ms right, left.kind = .leftParen ∧ x.1.kind = .identifier ∧
      in_.kind = .keyword .in_ ∧ right.kind = .rightParen ∧ ts = left :: x.1 :: in_ :: ms ∧
      Expression True ms x.2 (right :: rest) := by
  unfold iteration
  apply Reply.Sound.start expect_sound
  rintro left rest hr ⟨hleft, rfl⟩
  apply Reply.Sound.next identifier_sound
  rintro x rest hr ⟨hx, rfl⟩
  apply Reply.Sound.next expect_sound
  rintro in_ rest hr ⟨hin, rfl⟩
  apply Reply.Sound.next (closed_sound fin .rightParen _ rest)
  rintro c rest' _ ⟨hright, hc⟩ -
  exact ⟨left, in_, rest, c.2, hleft, hx, hin, hright, rfl, hc⟩

theorem repetition_sound : (repetition fin ts).Sound fun c rest =>
    ∃ while_ left ms right mark, while_.kind = .keyword .while_ ∧ left.kind = .leftParen ∧
      right.kind = .rightParen ∧ mark.kind = .semicolon ∧ ts = while_ :: left :: ms ∧
      Expression True ms c (right :: mark :: rest) := by
  unfold repetition
  apply Reply.Sound.start expect_sound
  rintro while_ rest hr ⟨hwhile, rfl⟩
  apply Reply.Sound.next parenthesized_sound
  rintro c rest' hr ⟨left, ms, right, hleft, hright, rfl, hc⟩
  apply Reply.Sound.next expect_sound
  rintro mark rest'' _ ⟨hmark, rfl⟩ -
  exact ⟨while_, left, ms, right, mark, hwhile, hleft, hright, hmark, rfl, hc⟩

mutual

theorem statement_sound (fin : Token) : (ts : List Token) →
    (statement fin ts).Sound (DerivesStmt ts)
  | [] => by
    rw [statement]
    exact expressionStatement_sound
  | t :: rest => by
    rw [statement]
    split
    · apply Reply.Sound.start (block_sound fin (t :: rest))
      intro b rest' _ hb _
      exact .closed rfl (.block hb)
    · next hk => exact .last (varStatement_sound hk)
    · next hk => exact .last (returnStatement_sound hk)
    · next hk => exact .last (ifStatement_sound fin t rest hk)
    · next hk => exact .last (whileStatement_sound fin t rest hk)
    · next hk => exact .last (doStatement_sound fin t rest hk)
    · next hk => exact .last (foreachStatement_sound fin t rest hk)
    · exact List.cons_ne_nil _ _
    · exact List.cons_ne_nil _ _
    · exact List.cons_ne_nil _ _
    · exact List.cons_ne_nil _ _
    · exact expressionStatement_sound
termination_by ts => 4 * ts.length + 1
decreasing_by all_goals (simp only [List.length_cons]; omega)

theorem ifStatement_sound (fin keyword : Token) (ts : List Token)
    (hk : keyword.kind = .keyword .if_) :
    (ifStatement fin keyword ts).Sound (DerivesStmt (keyword :: ts)) := by
  rw [ifStatement]
  apply Reply.Sound.start parenthesized_sound
  rintro c rest hr ⟨left, ms, right, hleft, hright, rfl, hc⟩
  apply Reply.Sound.next (statement_sound fin rest)
  rintro body rest' hr' ⟨hbody, hbare⟩
  split
  · exact fun _ => ⟨.if_ hk hleft hright hc hbody, by rintro _ t ⟨⟩⟩
  · next t rest'' hr'' =>
    have _lt : Shorter rest'' (left :: ms) := hr''.of_cons
    split
    · next helse =>
      apply Reply.Sound.next (statement_sound fin rest'')
      rintro arm last _ ⟨harm, hlast⟩ -
      have hd : body.dangles = false :=
        Bool.eq_false_iff.mpr fun hd => hbare hd t rfl helse
      exact ⟨.ifElse hk hleft hright helse (fun _ => hd) hc hbody harm, hlast⟩
    · next helse =>
      refine fun _ => ⟨.if_ hk hleft hright hc hbody, ?_⟩
      rintro _ _ ⟨⟩
      exact helse
termination_by 4 * ts.length + 2

theorem whileStatement_sound (fin keyword : Token) (ts : List Token)
    (hk : keyword.kind = .keyword .while_) :
    (whileStatement fin ts).Sound (DerivesStmt (keyword :: ts)) := by
  rw [whileStatement]
  apply Reply.Sound.start parenthesized_sound
  rintro c rest hr ⟨left, ms, right, hleft, hright, rfl, hc⟩
  apply Reply.Sound.next (statement_sound fin rest)
  rintro body rest' _ ⟨hbody, hbare⟩ -
  exact ⟨.while_ hk hleft hright hc hbody, hbare⟩
termination_by 4 * ts.length + 2
decreasing_by all_goals omega

theorem doStatement_sound (fin keyword : Token) (ts : List Token)
    (hk : keyword.kind = .keyword .do_) :
    (doStatement fin ts).Sound (DerivesStmt (keyword :: ts)) := by
  rw [doStatement]
  apply Reply.Sound.start (statement_sound fin ts)
  rintro body rest hr ⟨hbody, -⟩
  apply Reply.Sound.next repetition_sound
  rintro c rest' _ ⟨while_, left, ms, right, mark, hwhile, hleft, hright, hmark, rfl, hc⟩ -
  exact .closed rfl (.doWhile hk hwhile hleft hright hmark hbody hc)
termination_by 4 * ts.length + 2
decreasing_by all_goals omega

theorem foreachStatement_sound (fin keyword : Token) (ts : List Token)
    (hk : keyword.kind = .keyword .foreach) :
    (foreachStatement fin ts).Sound (DerivesStmt (keyword :: ts)) := by
  rw [foreachStatement]
  apply Reply.Sound.start iteration_sound
  rintro head rest hr ⟨left, in_, ms, right, hleft, hx, hin, hright, rfl, hc⟩
  apply Reply.Sound.next (statement_sound fin rest)
  rintro body rest' _ ⟨hbody, hbare⟩ -
  exact ⟨.foreach hk hleft hx hin hright hc hbody, hbare⟩
termination_by 4 * ts.length + 2
decreasing_by all_goals omega

theorem block_sound (fin : Token) (ts : List Token) :
    (block fin ts).Sound fun b rest => Grammar.Block True ts b rest := by
  rw [block]
  apply Reply.Sound.start expect_sound
  rintro brace rest hr ⟨hbrace, rfl⟩
  apply (statements_sound fin brace [] [] rest hr).imp
  rintro b rest' ⟨-, ss, right, hright, rfl, hss⟩
  exact .mk hbrace hright hss
termination_by 4 * ts.length
decreasing_by all_goals omega

theorem statements_sound {all : List Token} (fin brace : Token) (acc : List Stmt)
    (notes : List Diagnostic) : (ts : List Token) → (hs : Shorter ts all) →
    (statements fin brace acc notes ts hs).Sound fun b rest => notes = [] ∧
      ∃ ss right, right.kind = .rightBrace ∧
        b = ⟨acc.reverse ++ ss, brace.span + right.span⟩ ∧
        Grammar.Statements True ts ss (right :: rest)
  | [], hs => by
    rw [statements]
    intro hn
    exact absurd (List.append_eq_nil_iff.mp hn).2 (List.cons_ne_nil _ _)
  | t :: rest, hs => by
    rw [statements]
    split
    · next hk =>
      intro hn
      exact ⟨List.reverse_eq_nil_iff.mp hn, [], t, hk, by simp, .nil⟩
    · have hstmt := statement_sound fin (t :: rest)
      split
      · next s rest' more h' heq =>
        rw [heq] at hstmt
        have _lt : rest'.length ≤ rest.length := Nat.le_of_lt_succ h'
        apply (statements_sound fin brace (s :: acc) _ rest' (h'.within hs)).imp
        rintro b rest'' ⟨hn, ss, right, hright, rfl, hss⟩
        obtain ⟨hmore, hnotes⟩ := List.append_eq_nil_iff.mp hn
        have hs := hstmt (List.reverse_eq_nil_iff.mp hmore)
        exact ⟨hnotes, s :: ss, right, hright, by simp, .cons hs.1 hss⟩
      · next moved rest' more h' heq =>
        rw [heq] at hstmt
        have _lt := recover_shorter h'
        apply (statements_sound fin brace acc _ _ (recover_within h' hs)).imp
        rintro b rest'' ⟨hn, -⟩
        exact absurd (List.reverse_eq_nil_iff.mp (List.append_eq_nil_iff.mp hn).1) hstmt
termination_by ts => 4 * ts.length + 2
decreasing_by all_goals omega

end

/-! Declarations. -/

theorem namedItem_sound {keyword : Keyword} {nameContext endContext : String} :
    (namedItem keyword nameContext endContext fin ts).Sound fun name rest =>
      ∃ word mark, Item keyword word name mark ∧ ts = word :: name :: mark :: rest := by
  unfold namedItem
  apply Reply.Sound.start expect_sound
  rintro word rest hr ⟨hword, rfl⟩
  apply Reply.Sound.next identifier_sound
  rintro name rest hr ⟨hname, rfl⟩
  apply Reply.Sound.next expect_sound
  rintro mark rest' _ ⟨hmark, rfl⟩ -
  exact ⟨word, mark, ⟨hword, hname, hmark⟩, rfl⟩

theorem identifier_quiet {context : String} {t : Token} {notes : List Diagnostic}
    {h : Shorter rest ts} (heq : identifier context fin ts = .done t rest notes h) :
    notes = [] := by
  unfold identifier at heq
  split at heq
  · split at heq
    · cases heq
      rfl
    · cases heq
  · cases heq

theorem parametersTail_sound {all : List Token} (fin : Token) (acc : List Token) :
    (ts : List Token) → (hs : Shorter ts all) →
    (parametersTail fin acc ts hs).Sound fun names rest =>
      ∃ more, names = acc.reverse ++ more ∧ MoreNames ts more rest
  | [], hs => by
    rw [parametersTail]
    exact fun _ => ⟨[], by simp, .none⟩
  | t :: rest, hs => by
    rw [parametersTail]
    split
    · next hcomma =>
      have hn : (identifier "for parameter name" fin rest).Sound _ := identifier_sound
      split
      · next name rest' more h' heq =>
        rw [heq] at hn
        obtain ⟨hname, rfl⟩ := hn (identifier_quiet heq)
        apply (parametersTail_sound fin (name :: acc) rest' (h'.behind hs)).imp
        rintro names rest'' ⟨more, rfl, hmore⟩
        exact ⟨name :: more, by simp, .some hcomma hname hmore⟩
      · next heq =>
        rw [heq] at hn
        exact hn
    · exact fun _ => ⟨[], by simp, .none⟩
termination_by ts => ts.length
decreasing_by all_goals (simp only [List.length_cons]; omega)

theorem finishParameters_sound {function : Token} {names : List Token} :
    (finishParameters function names fin ts).Sound fun names' rest => names' = names ∧
      names.length ≤ ParseFault.maxArguments ∧
      ∃ right, right.kind = .rightParen ∧ ts = right :: rest := by
  unfold finishParameters
  apply Reply.Sound.start expect_sound
  rintro right rest hr ⟨hright, rfl⟩ hexcess
  simp only [ite_eq_right_iff, reduceCtorEq, imp_false, Nat.not_lt] at hexcess
  exact ⟨rfl, hexcess, right, hright, rfl⟩

theorem parameters_sound {function : Token} : (parameters function fin ts).Sound fun names rest =>
    names.length ≤ ParseFault.maxArguments ∧ ∃ left ms right, left.kind = .leftParen ∧
      right.kind = .rightParen ∧ ts = left :: ms ∧ Parameters ms names (right :: rest) := by
  unfold parameters
  apply Reply.Sound.start expect_sound
  rintro left rest hr ⟨hleft, rfl⟩
  split
  · apply Reply.Sound.last
    apply finishParameters_sound.imp
    rintro names rest' ⟨rfl, hfew, right, hright, rfl⟩
    exact ⟨hfew, left, _, right, hleft, hright, rfl, .none⟩
  · apply Reply.Sound.next identifier_sound
    rintro name rest hr ⟨hname, rfl⟩
    apply Reply.Sound.start (parametersTail_sound fin [name] rest hr)
    rintro names rest' hr' ⟨more, rfl, hmore⟩
    apply Reply.Sound.last
    apply finishParameters_sound.imp
    rintro names rest'' ⟨rfl, hfew, right, hright, rfl⟩
    exact ⟨hfew, left, _, right, hleft, hright, rfl, .some hname hmore⟩

theorem subroutine_sound : (subroutine fin ts).Sound fun s rest => Routine True ts s rest := by
  unfold subroutine
  apply Reply.Sound.start expect_sound
  rintro word rest hr ⟨hword, rfl⟩
  apply Reply.Sound.next identifier_sound
  rintro name rest hr ⟨hname, rfl⟩
  apply Reply.Sound.next parameters_sound
  rintro names rest hr ⟨hfew, left, ms, right, hleft, hright, rfl, hnames⟩
  apply Reply.Sound.next (block_sound fin rest)
  intro body rest' _ hbody _
  exact .mk hword hname hleft hright hfew hnames hbody

def withMembers (decl : ClassDecl) (properties : List Token) (methods : List Subroutine) :
    ClassDecl :=
  { decl with
    properties := properties.reverse ++ decl.properties
    methods := methods.reverse ++ decl.methods }

theorem members_sound {all : List Token} (fin : Token) (decl : ClassDecl)
    (notes : List Diagnostic) : (ts : List Token) → (hs : Shorter ts all) →
    (members fin decl notes ts hs).Sound fun c rest => notes = [] ∧
      ∃ properties methods right, right.kind = .rightBrace ∧
        c = finishClass (withMembers decl properties methods) ∧
        Grammar.Members True ts properties methods (right :: rest)
  | [], hs => by
    rw [members]
    intro hn
    exact absurd (List.append_eq_nil_iff.mp hn).2 (List.cons_ne_nil _ _)
  | t :: rest, hs => by
    have hm : (member fin decl (t :: rest)).Sound fun d rest' =>
        ∃ properties methods, d = withMembers decl properties methods ∧
          ∀ ps ms last, Grammar.Members True rest' ps ms last →
            Grammar.Members True (t :: rest) (properties ++ ps) (methods ++ ms) last := by
      unfold member
      split
      · apply Reply.Sound.start namedItem_sound
        rintro p rest' _ ⟨word, mark, hitem, heq⟩ -
        refine ⟨[p], [], rfl, fun ps ms last h => ?_⟩
        rw [heq]
        exact .property hitem h
      · apply Reply.Sound.start subroutine_sound
        intro m rest' _ hm _
        exact ⟨[], [m], rfl, fun ps ms last h => .method hm h⟩
      · exact List.cons_ne_nil _ _
    rw [members]
    split
    · next hk =>
      intro hn
      exact ⟨List.reverse_eq_nil_iff.mp hn, [], [], t, hk, rfl, .nil⟩
    · split
      · next d rest' more h' heq =>
        rw [heq] at hm
        apply (members_sound fin d _ rest' (h'.within hs)).imp
        rintro c rest'' ⟨hn, ps, ms, right, hright, rfl, hms⟩
        obtain ⟨hmore, hnotes⟩ := List.append_eq_nil_iff.mp hn
        obtain ⟨properties, methods, rfl, hd⟩ := hm (List.reverse_eq_nil_iff.mp hmore)
        refine ⟨hnotes, properties ++ ps, methods ++ ms, right, hright, ?_, hd ps ms _ hms⟩
        simp [withMembers]
      · next moved rest' more h' heq =>
        rw [heq] at hm
        have _lt := recover_shorter h'
        apply (members_sound fin decl _ _ (recover_within h' hs)).imp
        rintro c rest'' ⟨hn, -⟩
        exact absurd (List.reverse_eq_nil_iff.mp (List.append_eq_nil_iff.mp hn).1) hm
termination_by ts => ts.length
decreasing_by all_goals omega

theorem classHead_sound : (classHead fin ts).Sound fun base rest => Base ts base rest := by
  unfold classHead
  simp only
  split
  · exact List.cons_ne_nil _ _
  · next t rest =>
    split
    · next hcolon =>
      apply Reply.Sound.next identifier_sound
      rintro base rest hr ⟨hbase, rfl⟩
      apply Reply.Sound.last
      apply Reply.Sound.start expect_sound
      rintro left rest' _ ⟨hleft, rfl⟩ -
      exact .some hcolon hbase hleft
    · apply Reply.Sound.start expect_sound
      rintro left rest' _ ⟨hleft, heq⟩ -
      rw [heq]
      exact .none hleft

theorem classDeclaration_sound :
    (classDeclaration fin ts).Sound fun c rest => Class True ts c rest := by
  unfold classDeclaration
  apply Reply.Sound.start expect_sound
  rintro word rest hr ⟨hword, rfl⟩
  apply Reply.Sound.next identifier_sound
  rintro name rest hr ⟨hname, rfl⟩
  apply Reply.Sound.next classHead_sound
  intro base rest hr hbase
  apply (members_sound fin ⟨name, base, [], []⟩ [] rest hr).imp
  rintro c rest' ⟨-, properties, methods, right, hright, rfl, hms⟩
  have hc : finishClass (withMembers ⟨name, base, [], []⟩ properties methods)
      = ⟨name, base, properties, methods⟩ := by
    simp [finishClass, withMembers]
  rw [hc]
  exact .mk hword hname hright hbase hms

def withDeclarations (u : SourceUnit) (globals : List Token) (functions : List Subroutine)
    (classes : List ClassDecl) : SourceUnit :=
  { u with
    globals := globals.reverse ++ u.globals
    functions := functions.reverse ++ u.functions
    classes := classes.reverse ++ u.classes }

theorem declaration_sound {u : SourceUnit} : (declaration fin u ts).Sound fun u' rest =>
    ∃ globals functions classes, u' = withDeclarations u globals functions classes ∧
      ∀ gs fs cs, Declarations True rest gs fs cs →
        Declarations True ts (globals ++ gs) (functions ++ fs) (classes ++ cs) := by
  unfold declaration
  split
  · apply Reply.Sound.start namedItem_sound
    rintro g rest _ ⟨word, mark, hitem, rfl⟩ -
    exact ⟨[g], [], [], rfl, fun gs fs cs h => .global hitem h⟩
  · apply Reply.Sound.start subroutine_sound
    intro f rest _ hf _
    exact ⟨[], [f], [], rfl, fun gs fs cs h => .function hf h⟩
  · apply Reply.Sound.start classDeclaration_sound
    intro c rest _ hc _
    exact ⟨[], [], [c], rfl, fun gs fs cs h => .class_ hc h⟩
  · exact List.cons_ne_nil _ _

/-- Declarations that are read without complaint are derived. -/
theorem declarations_sound (fin : Token) (u : SourceUnit) (notes : List Diagnostic) :
    (ts : List Token) → (declarations fin u notes ts).2 = [] → notes = [] ∧
      ∃ globals functions classes, Declarations True ts globals functions classes ∧
        (declarations fin u notes ts).1
          = finishUnit (withDeclarations u globals functions classes)
  | [], hq => by
    rw [declarations] at hq ⊢
    exact ⟨List.reverse_eq_nil_iff.mp hq, [], [], [], .nil, rfl⟩
  | t :: rest, hq => by
    have hd : (declaration fin u (t :: rest)).Sound _ := declaration_sound
    rw [declarations] at hq ⊢
    split at hq
    · next u' rest' more _lt heq =>
      rw [heq] at hd
      obtain ⟨hn, gs, fs, cs, hds, hu⟩ := declarations_sound fin u' _ rest' hq
      obtain ⟨hmore, hnotes⟩ := List.append_eq_nil_iff.mp hn
      obtain ⟨globals, functions, classes, rfl, hall⟩ := hd (List.reverse_eq_nil_iff.mp hmore)
      refine ⟨hnotes, _, _, _, hall gs fs cs hds, hu.trans ?_⟩
      simp [withDeclarations]
    · next moved rest' more h' heq =>
      rw [heq] at hd
      have _lt := recover_shorter h'
      obtain ⟨hn, -⟩ := declarations_sound fin u _ _ hq
      exact absurd (List.reverse_eq_nil_iff.mp (List.append_eq_nil_iff.mp hn).1) hd
termination_by ts => ts.length
decreasing_by all_goals omega

end Parser

end Lss
