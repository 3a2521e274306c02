import Lss.Proofs.ParsedExpr

/-!
# What parsers give: statements, declarations, units

Also where statements, members or declarations had to be dropped, what is kept is formed.
-/
namespace Lss

namespace Parser

variable {fin : Token} {ts rest : List Token} {A : Prop}

/-! Going on after a failure takes nothing but tokens away. -/

theorem synchronize_spelled (depth : Nat) (ts : List Token) (h : AllSpelled ts) :
    AllSpelled (synchronize depth ts) := by
  fun_induction synchronize depth ts with
  | case1 => exact h
  | case2 | case6 => exact AllSpelled.tail h
  | case5 | case8 => exact h
  | case3 _ _ _ _ _ ih | case4 _ _ _ _ ih | case7 _ _ _ _ ih | case9 _ _ _ _ _ _ _ ih =>
    exact ih (AllSpelled.tail h)

theorem recover_spelled {moved : Bool} (h : AllSpelled rest) : AllSpelled (recover moved rest) := by
  unfold recover
  split
  · exact h
  · split
    · exact AllSpelled.tail h
    · exact synchronize_spelled 0 _ h

/-- A formed statement, before tokens that do not go on with an `else` of its own. -/
def YieldsStmt (A : Prop) (s : Stmt) (rest : List Token) (notes : List Diagnostic) : Prop :=
  (A → notes = []) → s.Formed IsName A True ∧
    (s.dangles → ∀ t ∈ rest.head?, t.kind ≠ .keyword .else_)

def YieldsBlock (A : Prop) (b : Block) (notes : List Diagnostic) : Prop :=
  (A → notes = []) → ∀ s ∈ b.statements, s.Formed IsName A True

theorem YieldsStmt.closed {s : Stmt} {notes : List Diagnostic} (hs : s.dangles = false)
    (h : (A → notes = []) → s.Formed IsName A True) : YieldsStmt A s rest notes := by
  refine fun hq => ⟨h hq, fun hd => ?_⟩
  rw [hs] at hd
  cases hd

theorem varStatement_obeys (h : AllSpelled ts) :
    (varStatement fin ts).Obeys (YieldsStmt A) := by
  unfold varStatement
  refine .start (identifier_obeys h) ?_
  rintro name rest hr _ hrest ⟨hname, rfl⟩
  have finish (init : Option Expr) (rest' : List Token) (hr' : Shorter rest' ts)
      (hrest' : AllSpelled rest') (notes : List Diagnostic)
      (hinit : (A → notes = []) → ∀ e ∈ init, e.Formed IsName A True) :
      ((expect .semicolon "after variable declaration" fin rest').next hr' fun _ rest hr =>
        Reply.done (Stmt.var name init) rest [] hr).Obeys fun s rest'' more =>
          YieldsStmt A s rest'' (notes ++ more) := by
    refine .next (expect_obeys hrest') ?_
    rintro mark rest'' _ _ - hrest'' -
    exact ⟨hrest'', .closed rfl fun hq => .var hname.1 hname.2 (hinit (quiet_left hq))⟩
  simp only
  split
  · next hr => exact finish none [] hr hrest [] (by simp)
  · next t rest hr =>
    split
    · refine .next (expression_obeys (A := A) fin rest (AllSpelled.tail hrest)) ?_
      intro e rest' hr' notes _ hrest' he
      refine finish (some e) rest' hr' hrest' notes fun hq e' he' => ?_
      cases he'
      exact (he hq).1
    · exact finish none (t :: rest) hr hrest [] (by simp)

theorem returnStatement_obeys {keyword : Token} (h : AllSpelled ts) :
    (returnStatement fin keyword ts).Obeys (YieldsStmt A) := by
  unfold returnStatement
  split
  · refine .start (expect_obeys h) ?_
    rintro mark rest' _ _ hrest' -
    exact ⟨hrest', .closed rfl fun _ => .return_ (by simp)⟩
  · refine .start (expression_obeys (A := A) fin ts h) fun e rest hr notes hrest he => ?_
    refine .next (expect_obeys hrest) ?_
    rintro mark rest' _ _ - hrest' -
    refine ⟨hrest', .closed rfl fun hq => .return_ fun e' he' => ?_⟩
    cases he'
    exact (he (quiet_left hq)).1

theorem expressionStatement_obeys (h : AllSpelled ts) :
    (expressionStatement fin ts).Obeys (YieldsStmt A) := by
  unfold expressionStatement
  refine .start (expression_obeys (A := A) fin ts h) fun e rest hr notes hrest he => ?_
  have finish (rest' : List Token) (hr' : Shorter rest' ts) (hrest' : AllSpelled rest') :
      ((expect .semicolon "after expression" fin rest').next hr' fun _ rest hr =>
        Reply.done (Stmt.expr e) rest [] hr).Obeys fun s rest'' more =>
          YieldsStmt A s rest'' (notes ++ more) := by
    refine .next (expect_obeys hrest') ?_
    rintro mark rest'' _ _ - hrest'' -
    exact ⟨hrest'', .closed rfl fun hq => .expr (he (quiet_left hq)).1⟩
  simp only
  split
  · next hr => exact finish [] hr hrest
  · next t rest hr =>
    split
    · refine .next (expression_obeys (A := A) fin rest (AllSpelled.tail hrest)) ?_
      intro value rest' hr' more _ hrest' hv
      refine .next (expect_obeys hrest') ?_
      rintro mark rest'' _ _ - hrest'' -
      refine ⟨hrest'', .closed rfl fun hq => ?_⟩
      exact .assign (he (quiet_left hq)).1 (hv (quiet_left (quiet_right hq))).1
    · exact finish (t :: rest) hr hrest

theorem parenthesized_obeys {opening closing : String} (h : AllSpelled ts) :
    (parenthesized opening closing fin ts).Obeys fun e _ notes => Yields A 0 e notes := by
  unfold parenthesized
  refine .start (expect_obeys h) ?_
  rintro mark rest hr _ hrest ⟨-, -, rfl⟩
  refine .next (closed_obeys (A := A) fin .rightParen closing rest hrest) ?_
  intro x rest' _ notes _ hrest' hx
  exact ⟨hrest', fun hq => hx (quiet_left hq)⟩

theorem iteration_obeys (h : AllSpelled ts) : (iteration fin ts).Obeys fun x _ notes =>
    x.1.IsName ∧ Yields A 0 x.2 notes := by
  unfold iteration
  refine .start (expect_obeys h) ?_
  rintro mark rest hr _ hrest ⟨-, -, rfl⟩
  refine .next (identifier_obeys hrest) ?_
  rintro x rest hr _ - hrest ⟨hx, rfl⟩
  refine .next (expect_obeys hrest) ?_
  rintro _ rest hr _ - hrest ⟨-, -, rfl⟩
  refine .next (closed_obeys (A := A) fin .rightParen _ rest hrest) ?_
  intro inner rest' _ notes _ hrest' hc
  exact ⟨hrest', hx, fun hq => hc (quiet_left hq)⟩

theorem repetition_obeys (h : AllSpelled ts) :
    (repetition fin ts).Obeys fun e _ notes => Yields A 0 e notes := by
  unfold repetition
  refine .start (expect_obeys h) ?_
  rintro mark rest hr _ hrest ⟨-, -, rfl⟩
  refine .next (parenthesized_obeys (A := A) hrest) ?_
  intro c rest hr notes _ hrest hc
  refine .next (expect_obeys hrest) ?_
  rintro _ rest' _ _ - hrest' -
  exact ⟨hrest', fun hq => hc (quiet_left hq)⟩

mutual

theorem statement_obeys (fin : Token) : (ts : List Token) → AllSpelled ts →
    (statement fin ts).Obeys (YieldsStmt A)
  | [], h => by
    rw [statement]
    exact expressionStatement_obeys h
  | t :: rest, h => by
    have hrest := AllSpelled.tail h
    rw [statement]
    split
    · refine .start (block_obeys fin (t :: rest) h) fun b rest' hr notes hrest' hb => ?_
      exact ⟨hrest', .closed rfl fun hq => .block (hb (quiet_left hq))⟩
    · exact .last (varStatement_obeys hrest)
    · exact .last (returnStatement_obeys hrest)
    · exact .last (ifStatement_obeys fin t rest hrest)
    · exact .last (whileStatement_obeys fin rest hrest)
    · exact .last (doStatement_obeys fin rest hrest)
    · exact .last (foreachStatement_obeys fin rest hrest)
    · exact hrest
    · exact hrest
    · exact hrest
    · exact hrest
    · exact expressionStatement_obeys h
termination_by ts => 4 * ts.length + 1
decreasing_by all_goals (simp only [List.length_cons]; omega)

theorem ifStatement_obeys (fin keyword : Token) (ts : List Token) (h : AllSpelled ts) :
    (ifStatement fin keyword ts).Obeys (YieldsStmt A) := by
  rw [ifStatement]
  refine .start (parenthesized_obeys (A := A) h) fun c rest hr notes hrest hc => ?_
  refine .next (statement_obeys fin rest hrest) fun body rest' hr' more _ hrest' hbody => ?_
  have bare : (A → notes ++ (more ++ []) = []) → (∀ t ∈ rest'.head?, t.kind ≠ .keyword .else_) →
      (Stmt.if_ (some c) body none (keyword.span + body.span)).Formed IsName A True ∧
        (True → ∀ t ∈ rest'.head?, t.kind ≠ .keyword .else_) := fun hq helse =>
    ⟨.if_ (hc (quiet_left hq)).1 (hbody (quiet_left (quiet_right hq))).1, fun _ => helse⟩
  split
  · exact ⟨hrest', fun hq => ⟨(bare hq (by simp)).1, by simp⟩⟩
  · next t rest'' hr'' _ =>
    have _lt : Shorter rest'' ts := hr''.of_cons
    split
    · next helse =>
      refine .next (statement_obeys fin rest'' (AllSpelled.tail hrest')) ?_
      intro arm last _ more' _ hlast harm
      refine ⟨hlast, fun hq => ?_⟩
      obtain ⟨hbf, hbd⟩ := hbody (quiet_left (quiet_right hq))
      obtain ⟨haf, had⟩ := harm (quiet_left (quiet_right (quiet_right hq)))
      refine ⟨.ifElse (hc (quiet_left hq)).1 hbf ?_ haf, had⟩
      exact Bool.eq_false_iff.mpr fun hd => hbd hd t rfl helse
    · next helse =>
      refine ⟨hrest', fun hq => ⟨(bare hq ?_).1, fun _ => ?_⟩⟩
      · rintro _ ⟨⟩
        exact helse
      · rintro _ ⟨⟩
        exact helse
termination_by 4 * ts.length + 2
decreasing_by all_goals omega

theorem whileStatement_obeys (fin : Token) (ts : List Token) (h : AllSpelled ts) :
    (whileStatement fin ts).Obeys (YieldsStmt A) := by
  rw [whileStatement]
  refine .start (parenthesized_obeys (A := A) h) fun c rest hr notes hrest hc => ?_
  refine .next (statement_obeys fin rest hrest) fun body rest' _ more _ hrest' hbody => ?_
  refine ⟨hrest', fun hq => ?_⟩
  obtain ⟨hbf, hbd⟩ := hbody (quiet_left (quiet_right hq))
  exact ⟨.while_ (hc (quiet_left hq)).1 hbf, hbd⟩
termination_by 4 * ts.length + 2
decreasing_by all_goals omega

theorem doStatement_obeys (fin : Token) (ts : List Token) (h : AllSpelled ts) :
    (doStatement fin ts).Obeys (YieldsStmt A) := by
  rw [doStatement]
  refine .start (statement_obeys fin ts h) fun body rest hr notes hrest hbody => ?_
  refine .next (repetition_obeys (A := A) hrest) fun c rest' _ more _ hrest' hc => ?_
  refine ⟨hrest', .closed rfl fun hq => ?_⟩
  exact .doWhile (hbody (quiet_left hq)).1 (hc (quiet_left (quiet_right hq))).1
termination_by 4 * ts.length + 2
decreasing_by all_goals omega

theorem foreachStatement_obeys (fin : Token) (ts : List Token) (h : AllSpelled ts) :
    (foreachStatement fin ts).Obeys (YieldsStmt A) := by
  rw [foreachStatement]
  refine .start (iteration_obeys (A := A) h) ?_
  rintro head rest hr notes hrest ⟨hx, hc⟩
  refine .next (statement_obeys fin rest hrest) fun body rest' _ more _ hrest' hbody => ?_
  refine ⟨hrest', fun hq => ?_⟩
  obtain ⟨hbf, hbd⟩ := hbody (quiet_left (quiet_right hq))
  exact ⟨.foreach hx.1 hx.2 (hc (quiet_left hq)).1 hbf, hbd⟩
termination_by 4 * ts.length + 2
decreasing_by all_goals omega

theorem block_obeys (fin : Token) (ts : List Token) (h : AllSpelled ts) :
    (block fin ts).Obeys fun b _ notes => YieldsBlock A b notes := by
  rw [block]
  refine .start (expect_obeys h) ?_
  rintro brace rest hr _ hrest ⟨-, -, rfl⟩
  exact statements_obeys fin brace [] [] rest hr hrest (by simp)
termination_by 4 * ts.length
decreasing_by all_goals omega

theorem statements_obeys {all : List Token} (fin brace : Token) (acc : List Stmt)
    (notes : List Diagnostic) : (ts : List Token) → (hs : Shorter ts all) → AllSpelled ts →
    ((A → notes = []) → ∀ s ∈ acc, s.Formed IsName A True) →
    (statements fin brace acc notes ts hs).Obeys fun b _ notes => YieldsBlock A b notes
  | [], hs, h, hacc => by
    rw [statements]
    refine ⟨h, fun hq s hs => ?_⟩
    exact hacc (fun hA => List.reverse_eq_nil_iff.mp (quiet_left hq hA)) s (List.mem_reverse.mp hs)
  | t :: rest, hs, h, hacc => by
    rw [statements]
    split
    · refine ⟨AllSpelled.tail h, fun hq s hs => ?_⟩
      exact hacc (fun hA => List.reverse_eq_nil_iff.mp (hq hA)) s (List.mem_reverse.mp hs)
    · have hstmt := statement_obeys fin (t :: rest) h
      split
      · next s rest' more h' heq =>
        rw [heq] at hstmt
        have _lt : rest'.length ≤ rest.length := Nat.le_of_lt_succ h'
        refine statements_obeys fin brace (s :: acc) _ rest' (h'.within hs) hstmt.1 ?_
        intro hq s' hs'
        cases hs' with
        | head =>
          exact (hstmt.2 fun hA => List.reverse_eq_nil_iff.mp (quiet_left hq hA)).1
        | tail _ hs' => exact hacc (quiet_right hq) s' hs'
      · next moved rest' more h' heq =>
        rw [heq] at hstmt
        have _lt := recover_shorter h'
        exact statements_obeys fin brace acc _ _ (recover_within h' hs) (recover_spelled hstmt)
          fun hq => hacc (quiet_right hq)
termination_by ts => 4 * ts.length + 2
decreasing_by all_goals omega

end

/-! Declarations. -/

theorem namedItem_obeys {keyword : Keyword} {nameContext endContext : String} (h : AllSpelled ts) :
    (namedItem keyword nameContext endContext fin ts).Obeys fun t _ _ => t.IsName := by
  unfold namedItem
  refine .start (expect_obeys h) ?_
  rintro _ rest hr _ hrest -
  refine .next (identifier_obeys hrest) ?_
  rintro name rest hr _ - hrest ⟨hname, -⟩
  refine .next (expect_obeys hrest) ?_
  rintro _ rest' _ _ - hrest' -
  exact ⟨hrest', hname⟩

theorem parametersTail_obeys {all : List Token} (fin : Token) (acc : List Token) :
    (ts : List Token) → (hs : Shorter ts all) → AllSpelled ts → (∀ t ∈ acc, t.IsName) →
    (parametersTail fin acc ts hs).Obeys fun names _ _ => ∀ t ∈ names, t.IsName
  | [], hs, h, hacc => by
    rw [parametersTail]
    exact ⟨h, fun t ht => hacc t (List.mem_reverse.mp ht)⟩
  | t :: rest, hs, h, hacc => by
    rw [parametersTail]
    split
    · have hn : (identifier "for parameter name" fin rest).Obeys _ :=
        identifier_obeys (AllSpelled.tail h)
      split
      · next name rest' more h' heq =>
        rw [heq] at hn
        refine parametersTail_obeys fin (name :: acc) rest' (h'.behind hs) hn.1 fun t ht => ?_
        cases ht with
        | head => exact hn.2.1
        | tail _ ht => exact hacc t ht
      · next heq =>
        rw [heq] at hn
        exact hn
    · exact ⟨h, fun t ht => hacc t (List.mem_reverse.mp ht)⟩
termination_by ts => ts.length
decreasing_by all_goals (simp only [List.length_cons]; omega)

def YieldsNames (A : Prop) (names : List Token) (notes : List Diagnostic) : Prop :=
  (A → notes = []) → (∀ t ∈ names, t.IsName) ∧ (A → names.length ≤ ParseFault.maxArguments)

theorem finishParameters_obeys {function : Token} {names : List Token} (h : AllSpelled ts)
    (hnames : ∀ t ∈ names, t.IsName) :
    (finishParameters function names fin ts).Obeys
      fun names _ notes => YieldsNames A names notes := by
  unfold finishParameters
  refine .start (expect_obeys h) ?_
  rintro paren rest hr _ hrest -
  refine ⟨hrest, fun hq => ⟨hnames, fun hA => ?_⟩⟩
  have hexcess := quiet_right hq hA
  simp only [ite_eq_right_iff, reduceCtorEq, imp_false, Nat.not_lt] at hexcess
  exact hexcess

theorem parameters_obeys {function : Token} (h : AllSpelled ts) :
    (parameters function fin ts).Obeys fun names _ notes => YieldsNames A names notes := by
  unfold parameters
  refine .start (expect_obeys h) ?_
  rintro _ rest hr _ hrest ⟨-, -, rfl⟩
  split
  · exact .last (finishParameters_obeys hrest (by simp))
  · refine .next (identifier_obeys hrest) ?_
    rintro name rest hr _ - hrest ⟨hname, rfl⟩
    have hone : ∀ t ∈ [name], t.IsName := by simpa using hname
    refine .start (parametersTail_obeys fin [name] rest hr hrest hone) ?_
    intro names rest hr notes hrest hnames
    refine (Reply.Obeys.last (finishParameters_obeys (A := A) hrest hnames)).imp ?_
    exact fun names _ more hm hq => hm (quiet_right hq)

theorem subroutine_obeys (h : AllSpelled ts) : (subroutine fin ts).Obeys fun s _ notes =>
    (A → notes = []) → s.Formed A True := by
  unfold subroutine
  refine .start (expect_obeys h) ?_
  rintro _ rest hr _ hrest ⟨-, -, rfl⟩
  refine .next (identifier_obeys hrest) ?_
  rintro name rest hr _ - hrest ⟨hname, rfl⟩
  refine .next (parameters_obeys (A := A) hrest) ?_
  intro names rest hr notes _ hrest hnames
  refine .next (block_obeys (A := A) fin rest hrest) ?_
  intro body rest' _ more _ hrest' hbody
  refine ⟨hrest', fun hq => ?_⟩
  obtain ⟨hall, hfew⟩ := hnames (quiet_left hq)
  exact ⟨hname, hall, hfew, hbody (quiet_left (quiet_right hq))⟩

theorem member_obeys {decl : ClassDecl} (h : AllSpelled ts) : (member fin decl ts).Obeys
    fun d _ notes => (A → notes = []) → decl.Formed A True → d.Formed A True := by
  unfold member
  split
  · refine .start (namedItem_obeys h) fun p rest _ notes hrest hp => ?_
    refine ⟨hrest, fun _ hd => ⟨hd.name, hd.base, ?_, hd.methods⟩⟩
    intro t ht
    cases ht with
    | head => exact hp
    | tail _ ht => exact hd.properties t ht
  · refine .start (subroutine_obeys (A := A) h) fun m rest _ notes hrest hm => ?_
    refine ⟨hrest, fun hq hd => ⟨hd.name, hd.base, hd.properties, ?_⟩⟩
    intro s hs
    cases hs with
    | head => exact hm (quiet_left hq)
    | tail _ hs => exact hd.methods s hs
  · exact h

theorem finishClass_formed {decl : ClassDecl} (h : decl.Formed A True) :
    (finishClass decl).Formed A True :=
  ⟨h.name, h.base, fun t ht => h.properties t (List.mem_reverse.mp ht),
    fun m hm => h.methods m (List.mem_reverse.mp hm)⟩

theorem members_obeys {all : List Token} (fin : Token) (decl : ClassDecl)
    (notes : List Diagnostic) : (ts : List Token) → (hs : Shorter ts all) → AllSpelled ts →
    ((A → notes = []) → decl.Formed A True) →
    (members fin decl notes ts hs).Obeys fun d _ notes => (A → notes = []) → d.Formed A True
  | [], hs, h, hdecl => by
    rw [members]
    refine ⟨h, fun hq => finishClass_formed (hdecl fun hA => ?_)⟩
    exact List.reverse_eq_nil_iff.mp (quiet_left hq hA)
  | t :: rest, hs, h, hdecl => by
    rw [members]
    split
    · refine ⟨AllSpelled.tail h, fun hq => finishClass_formed (hdecl fun hA => ?_)⟩
      exact List.reverse_eq_nil_iff.mp (hq hA)
    · have hm : (member fin decl (t :: rest)).Obeys _ := member_obeys (A := A) h
      split
      · next d rest' more h' heq =>
        rw [heq] at hm
        refine members_obeys fin d _ rest' (h'.within hs) hm.1 fun hq => ?_
        refine hm.2 (fun hA => ?_) (hdecl (quiet_right hq))
        exact List.reverse_eq_nil_iff.mp (quiet_left hq hA)
      · next moved rest' more h' heq =>
        rw [heq] at hm
        have _lt := recover_shorter h'
        exact members_obeys fin decl _ _ (recover_within h' hs) (recover_spelled hm)
          fun hq => hdecl (quiet_right hq)
termination_by ts => ts.length
decreasing_by all_goals omega

theorem classHead_obeys (h : AllSpelled ts) :
    (classHead fin ts).Obeys fun base _ _ => ∀ t ∈ base, t.IsName := by
  have opened (base : Option Token) (ts : List Token) (h : AllSpelled ts)
      (hbase : ∀ t ∈ base, t.IsName) :
      ((expect .leftBrace "before class body" fin ts).start fun _ rest hr =>
        Reply.done base rest [] hr).Obeys fun base _ _ => ∀ t ∈ base, t.IsName := by
    refine .start (expect_obeys h) ?_
    rintro _ rest _ _ hrest -
    exact ⟨hrest, hbase⟩
  unfold classHead
  simp only
  split
  · exact opened none [] h (by simp)
  · next t rest =>
    split
    · refine .next (identifier_obeys (AllSpelled.tail h)) ?_
      rintro base rest _ _ - hrest ⟨hbase, -⟩
      refine .last (opened (some base) rest hrest fun t ht => ?_)
      cases ht
      exact hbase
    · exact opened none (t :: rest) h (by simp)

theorem classDeclaration_obeys (h : AllSpelled ts) : (classDeclaration fin ts).Obeys
    fun c _ notes => (A → notes = []) → c.Formed A True := by
  unfold classDeclaration
  refine .start (expect_obeys h) ?_
  rintro _ rest hr _ hrest ⟨-, -, rfl⟩
  refine .next (identifier_obeys hrest) ?_
  rintro name rest hr _ - hrest ⟨hname, rfl⟩
  refine .next (classHead_obeys hrest) ?_
  intro base rest hr notes _ hrest hbase
  refine (members_obeys (A := A) fin ⟨name, base, [], []⟩ [] rest hr hrest fun _ => ?_).imp ?_
  · exact ⟨hname, hbase, by simp, by simp⟩
  · exact fun c _ more hc hq => hc (quiet_right hq)

theorem declaration_obeys {u : SourceUnit} (h : AllSpelled ts) : (declaration fin u ts).Obeys
    fun u' _ notes =>
      u'.file = u.file ∧ ((A → notes = []) → u.Formed A True → u'.Formed A True) := by
  unfold declaration
  split
  · refine .start (namedItem_obeys h) fun g rest _ notes hrest hg => ?_
    refine ⟨hrest, rfl, fun _ hu => ⟨?_, hu.functions, hu.classes⟩⟩
    intro t ht
    cases ht with
    | head => exact hg
    | tail _ ht => exact hu.globals t ht
  · refine .start (subroutine_obeys (A := A) h) fun f rest _ notes hrest hf => ?_
    refine ⟨hrest, rfl, fun hq hu => ⟨hu.globals, ?_, hu.classes⟩⟩
    intro s hs
    cases hs with
    | head => exact hf (quiet_left hq)
    | tail _ hs => exact hu.functions s hs
  · refine .start (classDeclaration_obeys (A := A) h) fun c rest _ notes hrest hc => ?_
    refine ⟨hrest, rfl, fun hq hu => ⟨hu.globals, hu.functions, ?_⟩⟩
    intro d hd
    cases hd with
    | head => exact hc (quiet_left hq)
    | tail _ hd => exact hu.classes d hd
  · exact h

/-- What is parsed from spelled tokens is formed, whatever had to be dropped. -/
theorem declarations_formed (fin : Token) (u : SourceUnit) (notes : List Diagnostic) :
    (ts : List Token) → AllSpelled ts → ((A → notes = []) → u.Formed A True) →
    (A → (declarations fin u notes ts).2 = []) → (declarations fin u notes ts).1.Formed A True
  | [], h, hu, hq => by
    rw [declarations] at hq ⊢
    have := hu fun hA => List.reverse_eq_nil_iff.mp (hq hA)
    exact ⟨fun t ht => this.globals t (List.mem_reverse.mp ht),
      fun f hf => this.functions f (List.mem_reverse.mp hf),
      fun c hc => this.classes c (List.mem_reverse.mp hc)⟩
  | t :: rest, h, hu, hq => by
    have hd : (declaration fin u (t :: rest)).Obeys _ := declaration_obeys (A := A) h
    rw [declarations] at hq ⊢
    split at hq
    · next u' rest' more _lt heq =>
      rw [heq] at hd
      refine declarations_formed fin u' _ rest' hd.1 (fun hq' => ?_) hq
      refine hd.2.2 (fun hA => ?_) (hu (quiet_right hq'))
      exact List.reverse_eq_nil_iff.mp (quiet_left hq' hA)
    · next moved rest' more h' heq =>
      rw [heq] at hd
      have _lt := recover_shorter h'
      exact declarations_formed fin u _ _ (recover_spelled hd) (fun hq' => hu (quiet_right hq')) hq
termination_by ts => ts.length
decreasing_by all_goals omega

theorem declarations_file (fin : Token) (u : SourceUnit) (notes : List Diagnostic) :
    (ts : List Token) → AllSpelled ts → (declarations fin u notes ts).1.file = u.file
  | [], _ => by rw [declarations]; rfl
  | t :: rest, h => by
    have hd : (declaration fin u (t :: rest)).Obeys _ := declaration_obeys (A := True) h
    rw [declarations]
    split
    · next u' rest' more _lt heq =>
      rw [heq] at hd
      rw [declarations_file fin u' _ rest' hd.1, hd.2.1]
    · next moved rest' more h' heq =>
      rw [heq] at hd
      have _lt := recover_shorter h'
      exact declarations_file fin u _ _ (recover_spelled hd)
termination_by ts => ts.length
decreasing_by all_goals omega

end Parser

end Lss
