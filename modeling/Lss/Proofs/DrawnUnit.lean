import Lss.Proofs.Drawn
import Lss.Proofs.Introduced
import Lss.Proofs.Tiling

/-!
# Parsers take names from tokens: statements, declarations, units

The names in the units of a text are identifiers in the text, and so are the names that are given
there. So they are names that the language has, also where something is wrong with the text, and
none of them is hidden.
-/
namespace Lss

def Token.Proper (t : Token) : Prop := t.kind = .identifier → Lss.IsName t.text

/-- The names that stand in a statement are names of the language, and so are those that it
gives. -/
structure Stmt.Proper (s : Stmt) : Prop where
  names : s.Names Token.Proper
  binders : ∀ b ∈ s.binders, IsName b.name

structure SubroutineOf.Proper (s : Subroutine) : Prop where
  name : IsName s.name.text
  parameters : ∀ t ∈ s.parameters, IsName t.text
  statements : ∀ x ∈ s.body.statements, x.Proper

structure ClassDeclOf.Proper (d : ClassDecl) : Prop where
  name : IsName d.name.text
  properties : ∀ t ∈ d.properties, IsName t.text
  methods : ∀ m ∈ d.methods, m.Proper

structure SourceUnit.Proper (u : SourceUnit) : Prop where
  globals : ∀ t ∈ u.globals, IsName t.text
  functions : ∀ f ∈ u.functions, f.Proper
  classes : ∀ d ∈ u.classes, d.Proper

namespace Stmt

variable {e c : Expr} {name : Token} {s arm : Stmt} {ss : List Stmt} {span : Span}

theorem Proper.all_binders (h : ∀ s ∈ ss, s.Proper) : ∀ b ∈ bindersAll ss, IsName b.name := by
  intro b hb
  rw [bindersAll_eq] at hb
  obtain ⟨s, hs, hb⟩ := List.mem_flatMap.mp hb
  exact (h s hs).binders b hb

theorem Proper.all_names (h : ∀ s ∈ ss, s.Proper) : AllNames Token.Proper ss :=
  allNames_iff.mpr fun s hs => (h s hs).names

theorem Proper.block (h : ∀ s ∈ ss, s.Proper) : (Stmt.block ⟨ss, span⟩).Proper :=
  ⟨Proper.all_names h, Proper.all_binders h⟩

theorem Proper.expr (h : e.Names Token.Proper) : (Stmt.expr e).Proper :=
  ⟨h, List.forall_mem_nil _⟩

theorem Proper.assign (ht : e.Names Token.Proper) (hv : c.Names Token.Proper) :
    (Stmt.assign e c).Proper :=
  ⟨⟨ht, hv⟩, List.forall_mem_nil _⟩

theorem Proper.var {init : Option Expr} (hname : IsName name.text)
    (hinit : ∀ e ∈ init, e.Names Token.Proper) : (Stmt.var name init).Proper := by
  refine ⟨?_, List.forall_mem_singleton.mpr hname⟩
  cases init with
  | none => trivial
  | some e => exact hinit e rfl

theorem Proper.return_ {value : Option Expr} (h : ∀ e ∈ value, e.Names Token.Proper) :
    (Stmt.return_ value span).Proper := by
  refine ⟨?_, List.forall_mem_nil _⟩
  cases value with
  | none => trivial
  | some e => exact h e rfl

theorem Proper.if_ (hc : c.Names Token.Proper) (hs : s.Proper) :
    (Stmt.if_ (some c) s none span).Proper :=
  ⟨⟨hc, hs.names⟩, hs.binders⟩

/-- The arm of an `else`. -/
theorem Proper.elseArm (h : s.Proper) : (Stmt.if_ none s none span).Proper := ⟨h.names, h.binders⟩

theorem Proper.ifElse (hc : c.Names Token.Proper) (hs : s.Proper) (harm : arm.Proper) :
    (Stmt.if_ (some c) s (some arm) span).Proper :=
  ⟨⟨hc, hs.names, harm.names⟩, List.forall_mem_append.mpr ⟨hs.binders, harm.binders⟩⟩

theorem Proper.while_ (hc : c.Names Token.Proper) (hs : s.Proper) : (Stmt.while_ c s).Proper :=
  ⟨⟨hc, hs.names⟩, hs.binders⟩

theorem Proper.doWhile (hs : s.Proper) (hc : c.Names Token.Proper) : (Stmt.doWhile s c).Proper :=
  ⟨⟨hc, hs.names⟩, hs.binders⟩

theorem Proper.foreach (hname : IsName name.text) (hc : c.Names Token.Proper) (hs : s.Proper) :
    (Stmt.foreach name c s).Proper :=
  ⟨⟨hc, hs.names⟩, List.forall_mem_cons.mpr ⟨hname, hs.binders⟩⟩

end Stmt

namespace SubroutineOf.Proper

variable {s : Subroutine}

theorem names (h : s.Proper) : Stmt.AllNames Token.Proper s.body.statements :=
  Stmt.Proper.all_names h.statements

theorem binders (h : s.Proper) : ∀ b ∈ s.binders, IsName b.name := by
  refine List.forall_mem_append.mpr ⟨fun b hb => ?_, Stmt.Proper.all_binders h.statements⟩
  obtain ⟨t, ht, rfl⟩ := List.mem_map.mp hb
  exact h.parameters t ht

end SubroutineOf.Proper

theorem SourceUnit.Proper.subroutines {u : SourceUnit} (h : u.Proper) :
    ∀ s ∈ u.subroutines, s.Proper := by
  refine List.forall_mem_append.mpr ⟨h.functions, fun s hs => ?_⟩
  obtain ⟨d, hd, hs⟩ := List.mem_flatMap.mp hs
  exact (h.classes d hd).methods s hs

namespace Parser

variable {fin : Token} {ts rest : List Token}

/-! Names that are given. -/

theorem name_draws {context : String} (h : ∀ t ∈ ts, t.Proper) :
    (identifier context fin ts).Draws Token.Proper fun t => IsName t.text := by
  have hdraws : (identifier context fin ts).Draws Token.Proper fun t =>
      t.Proper ∧ t.kind = .identifier := identifier_draws h
  cases hreply : identifier context fin ts with
  | done t rest notes hs =>
    rw [hreply] at hdraws
    exact ⟨hdraws.1, hdraws.2.1 hdraws.2.2⟩
  | gaveUp moved rest notes hs =>
    rw [hreply] at hdraws
    exact hdraws

/-! Statements. -/

theorem varStatement_draws (h : ∀ t ∈ ts, t.Proper) :
    (varStatement fin ts).Draws Token.Proper Stmt.Proper := by
  unfold varStatement
  refine .start (name_draws h) fun name rest hr hrest hname => ?_
  have finish (init : Option Expr) (rest' : List Token) (hr' : Shorter rest' ts)
      (hrest' : ∀ t ∈ rest', t.Proper) (hinit : ∀ e ∈ init, e.Names Token.Proper) :
      ((expect .semicolon "after variable declaration" fin rest').next hr' fun _ rest hr =>
        Reply.done (Stmt.var name init) rest [] hr).Draws Token.Proper Stmt.Proper :=
    .next (expect_draws hrest') fun mark rest'' _ _ hrest'' _ => ⟨hrest'', .var hname hinit⟩
  have plain (rest' : List Token) (hr' : Shorter rest' ts) (hrest' : ∀ t ∈ rest', t.Proper) :=
    finish none rest' hr' hrest' fun e he => absurd he (Option.not_mem_none e)
  simp only
  split
  · next hr => exact plain [] hr hrest
  · next t rest hr =>
    split
    · refine .next (expression_draws fin rest (all_tail hrest)) fun e rest' hr' _ hrest' he => ?_
      exact finish (some e) rest' hr' hrest' fun _ heq => Option.some.inj heq ▸ he
    · exact plain (t :: rest) hr hrest

theorem returnStatement_draws {keyword : Token} (h : ∀ t ∈ ts, t.Proper) :
    (returnStatement fin keyword ts).Draws Token.Proper Stmt.Proper := by
  unfold returnStatement
  split
  · exact .start (expect_draws h) fun mark rest' _ hrest' _ => ⟨hrest', .return_ nofun⟩
  · refine .start (expression_draws fin ts h) fun e rest hr hrest he => ?_
    exact .next (expect_draws hrest) fun mark rest' _ _ hrest' _ =>
      ⟨hrest', .return_ fun _ heq => Option.some.inj heq ▸ he⟩

theorem expressionStatement_draws (h : ∀ t ∈ ts, t.Proper) :
    (expressionStatement fin ts).Draws Token.Proper Stmt.Proper := by
  unfold expressionStatement
  refine .start (expression_draws fin ts h) fun e rest hr hrest he => ?_
  have finish (rest' : List Token) (hr' : Shorter rest' ts) (hrest' : ∀ t ∈ rest', t.Proper) :
      ((expect .semicolon "after expression" fin rest').next hr' fun _ rest hr =>
        Reply.done (Stmt.expr e) rest [] hr).Draws Token.Proper Stmt.Proper :=
    .next (expect_draws hrest') fun mark rest'' _ _ hrest'' _ => ⟨hrest'', .expr he⟩
  simp only
  split
  · next hr => exact finish [] hr hrest
  · next t rest hr =>
    split
    · refine .next (expression_draws fin rest (all_tail hrest))
        fun value rest' hr' _ hrest' hv => ?_
      exact .next (expect_draws hrest') fun mark rest'' _ _ hrest'' _ => ⟨hrest'', .assign he hv⟩
    · exact finish (t :: rest) hr hrest

theorem parenthesized_draws {opening closing : String} (h : ∀ t ∈ ts, t.Proper) :
    (parenthesized opening closing fin ts).Draws Token.Proper (Expr.Names Token.Proper) := by
  unfold parenthesized
  refine .start (expect_draws h) fun mark rest hr hrest _ => ?_
  exact .next (closed_draws fin .rightParen closing rest hrest) fun x rest' _ _ hrest' hx =>
    ⟨hrest', hx⟩

theorem iteration_draws (h : ∀ t ∈ ts, t.Proper) : (iteration fin ts).Draws Token.Proper fun x =>
    IsName x.1.text ∧ x.2.Names Token.Proper := by
  unfold iteration
  refine .start (expect_draws h) fun mark rest hr hrest _ => ?_
  refine .next (name_draws hrest) fun x rest hr _ hrest hx => ?_
  refine .next (expect_draws hrest) fun mark rest hr _ hrest _ => ?_
  exact .next (closed_draws fin .rightParen _ rest hrest) fun inner rest' _ _ hrest' hc =>
    ⟨hrest', hx, hc⟩

theorem repetition_draws (h : ∀ t ∈ ts, t.Proper) :
    (repetition fin ts).Draws Token.Proper (Expr.Names Token.Proper) := by
  unfold repetition
  refine .start (expect_draws h) fun mark rest hr hrest _ => ?_
  refine .next (parenthesized_draws hrest) fun c rest hr _ hrest hc => ?_
  exact .next (expect_draws hrest) fun mark rest' _ _ hrest' _ => ⟨hrest', hc⟩

mutual

theorem statement_draws (fin : Token) : (ts : List Token) → (∀ t ∈ ts, t.Proper) →
    (statement fin ts).Draws Token.Proper Stmt.Proper
  | [], h => by
    rw [statement]
    exact expressionStatement_draws h
  | t :: rest, h => by
    have hrest := all_tail h
    rw [statement]
    split
    · exact .start (block_draws fin (t :: rest) h) fun ⟨ss, span⟩ rest' hr hrest' hb =>
        ⟨hrest', .block hb⟩
    · exact .last (varStatement_draws hrest)
    · exact .last (returnStatement_draws hrest)
    · exact .last (ifStatement_draws fin t rest hrest)
    · exact .last (whileStatement_draws fin rest hrest)
    · exact .last (doStatement_draws fin rest hrest)
    · exact .last (foreachStatement_draws fin rest hrest)
    · exact hrest
    · exact hrest
    · exact hrest
    · exact hrest
    · exact expressionStatement_draws h
termination_by ts => 4 * ts.length + 1
decreasing_by all_goals (simp only [List.length_cons]; omega)

theorem ifStatement_draws (fin keyword : Token) (ts : List Token) (h : ∀ t ∈ ts, t.Proper) :
    (ifStatement fin keyword ts).Draws Token.Proper Stmt.Proper := by
  rw [ifStatement]
  refine .start (parenthesized_draws h) fun c rest hr hrest hc => ?_
  refine .next (statement_draws fin rest hrest) fun body rest' hr' _ hrest' hbody => ?_
  split
  · exact ⟨hrest', .if_ hc hbody⟩
  · next t rest'' hr'' _ =>
    have _lt : Shorter rest'' ts := hr''.of_cons
    split
    · exact .next (statement_draws fin rest'' (all_tail hrest')) fun arm last _ _ hlast harm =>
        ⟨hlast, .ifElse hc hbody (.elseArm harm)⟩
    · exact ⟨hrest', .if_ hc hbody⟩
termination_by 4 * ts.length + 2
decreasing_by all_goals omega

theorem whileStatement_draws (fin : Token) (ts : List Token) (h : ∀ t ∈ ts, t.Proper) :
    (whileStatement fin ts).Draws Token.Proper Stmt.Proper := by
  rw [whileStatement]
  refine .start (parenthesized_draws h) fun c rest hr hrest hc => ?_
  exact .next (statement_draws fin rest hrest) fun body rest' _ _ hrest' hbody =>
    ⟨hrest', .while_ hc hbody⟩
termination_by 4 * ts.length + 2
decreasing_by all_goals omega

theorem doStatement_draws (fin : Token) (ts : List Token) (h : ∀ t ∈ ts, t.Proper) :
    (doStatement fin ts).Draws Token.Proper Stmt.Proper := by
  rw [doStatement]
  refine .start (statement_draws fin ts h) fun body rest hr hrest hbody => ?_
  exact .next (repetition_draws hrest) fun c rest' _ _ hrest' hc => ⟨hrest', .doWhile hbody hc⟩
termination_by 4 * ts.length + 2
decreasing_by all_goals omega

theorem foreachStatement_draws (fin : Token) (ts : List Token) (h : ∀ t ∈ ts, t.Proper) :
    (foreachStatement fin ts).Draws Token.Proper Stmt.Proper := by
  rw [foreachStatement]
  refine .start (iteration_draws h) fun head rest hr hrest hhead => ?_
  exact .next (statement_draws fin rest hrest) fun body rest' _ _ hrest' hbody =>
    ⟨hrest', .foreach hhead.1 hhead.2 hbody⟩
termination_by 4 * ts.length + 2
decreasing_by all_goals omega

theorem block_draws (fin : Token) (ts : List Token) (h : ∀ t ∈ ts, t.Proper) :
    (block fin ts).Draws Token.Proper fun b => ∀ s ∈ b.statements, s.Proper := by
  rw [block]
  refine .start (expect_draws h) fun brace rest hr hrest _ => ?_
  exact statements_draws fin brace [] [] rest hr hrest (List.forall_mem_nil _)
termination_by 4 * ts.length
decreasing_by all_goals omega

theorem statements_draws {all : List Token} (fin brace : Token) (acc : List Stmt)
    (notes : List Diagnostic) : (ts : List Token) → (hs : Shorter ts all) →
    (∀ t ∈ ts, t.Proper) → (∀ s ∈ acc, s.Proper) →
    (statements fin brace acc notes ts hs).Draws Token.Proper fun b => ∀ s ∈ b.statements, s.Proper
  | [], hs, h, hacc => by
    rw [statements]
    exact ⟨h, fun s hs => hacc s (List.mem_reverse.mp hs)⟩
  | t :: rest, hs, h, hacc => by
    rw [statements]
    split
    · exact ⟨all_tail h, fun s hs => hacc s (List.mem_reverse.mp hs)⟩
    · have hstmt := statement_draws fin (t :: rest) h
      split
      · next s rest' more h' heq =>
        rw [heq] at hstmt
        have _lt : rest'.length ≤ rest.length := Nat.le_of_lt_succ h'
        exact statements_draws fin brace (s :: acc) _ rest' (h'.within hs) hstmt.1
          (List.forall_mem_cons.mpr ⟨hstmt.2, hacc⟩)
      · next moved rest' more h' heq =>
        rw [heq] at hstmt
        have _lt := recover_shorter h'
        exact statements_draws fin brace acc _ _ (recover_within h' hs) (recover_all hstmt) hacc
termination_by ts => 4 * ts.length + 2
decreasing_by all_goals omega

end

/-! Declarations. -/

theorem namedItem_draws {keyword : Keyword} {nameContext endContext : String}
    (h : ∀ t ∈ ts, t.Proper) : (namedItem keyword nameContext endContext fin ts).Draws Token.Proper
      fun t => IsName t.text := by
  unfold namedItem
  refine .start (expect_draws h) fun mark rest hr hrest _ => ?_
  refine .next (name_draws hrest) fun name rest hr _ hrest hname => ?_
  exact .next (expect_draws hrest) fun mark rest' _ _ hrest' _ => ⟨hrest', hname⟩

theorem parametersTail_draws {all : List Token} (fin : Token) (acc : List Token) :
    (ts : List Token) → (hs : Shorter ts all) → (∀ t ∈ ts, t.Proper) →
    (∀ t ∈ acc, IsName t.text) →
    (parametersTail fin acc ts hs).Draws Token.Proper fun names => ∀ t ∈ names, IsName t.text
  | [], hs, h, hacc => by
    rw [parametersTail]
    exact ⟨h, fun t ht => hacc t (List.mem_reverse.mp ht)⟩
  | t :: rest, hs, h, hacc => by
    rw [parametersTail]
    split
    · have hn : (identifier "for parameter name" fin rest).Draws Token.Proper
          fun t => IsName t.text := name_draws (all_tail h)
      split
      · next name rest' more h' heq =>
        rw [heq] at hn
        exact parametersTail_draws fin (name :: acc) rest' (h'.behind hs) hn.1
          (List.forall_mem_cons.mpr ⟨hn.2, hacc⟩)
      · next heq =>
        rw [heq] at hn
        exact hn
    · exact ⟨h, fun t ht => hacc t (List.mem_reverse.mp ht)⟩
termination_by ts => ts.length
decreasing_by all_goals (simp only [List.length_cons]; omega)

theorem finishParameters_draws {function : Token} {names : List Token} (h : ∀ t ∈ ts, t.Proper)
    (hnames : ∀ t ∈ names, IsName t.text) :
    (finishParameters function names fin ts).Draws Token.Proper fun names =>
      ∀ t ∈ names, IsName t.text := by
  unfold finishParameters
  exact .start (expect_draws h) fun paren rest hr hrest _ => ⟨hrest, hnames⟩

theorem parameters_draws {function : Token} (h : ∀ t ∈ ts, t.Proper) :
    (parameters function fin ts).Draws Token.Proper fun names => ∀ t ∈ names, IsName t.text := by
  unfold parameters
  refine .start (expect_draws h) fun mark rest hr hrest _ => ?_
  split
  · exact .last (finishParameters_draws hrest (List.forall_mem_nil _))
  · refine .next (name_draws hrest) fun name rest hr _ hrest hname => ?_
    refine .start (parametersTail_draws fin [name] rest hr hrest
      (List.forall_mem_singleton.mpr hname)) fun names rest hr hrest hnames => ?_
    exact .last (finishParameters_draws hrest hnames)

theorem subroutine_draws (h : ∀ t ∈ ts, t.Proper) :
    (subroutine fin ts).Draws Token.Proper SubroutineOf.Proper := by
  unfold subroutine
  refine .start (expect_draws h) fun mark rest hr hrest _ => ?_
  refine .next (name_draws hrest) fun name rest hr _ hrest hname => ?_
  refine .next (parameters_draws hrest) fun names rest hr _ hrest hnames => ?_
  exact .next (block_draws fin rest hrest) fun body rest' _ _ hrest' hbody =>
    ⟨hrest', hname, hnames, hbody⟩

theorem member_draws {decl : ClassDecl} (h : ∀ t ∈ ts, t.Proper) (hd : decl.Proper) :
    (member fin decl ts).Draws Token.Proper ClassDeclOf.Proper := by
  unfold member
  split
  · exact .start (namedItem_draws h) fun p rest _ hrest hp =>
      ⟨hrest, { hd with properties := List.forall_mem_cons.mpr ⟨hp, hd.properties⟩ }⟩
  · exact .start (subroutine_draws h) fun m rest _ hrest hm =>
      ⟨hrest, { hd with methods := List.forall_mem_cons.mpr ⟨hm, hd.methods⟩ }⟩
  · exact h

theorem finishClass_proper {decl : ClassDecl} (h : decl.Proper) : (finishClass decl).Proper :=
  ⟨h.name, fun t ht => h.properties t (List.mem_reverse.mp ht),
    fun m hm => h.methods m (List.mem_reverse.mp hm)⟩

theorem members_draws {all : List Token} (fin : Token) (decl : ClassDecl)
    (notes : List Diagnostic) : (ts : List Token) → (hs : Shorter ts all) →
    (∀ t ∈ ts, t.Proper) → decl.Proper →
    (members fin decl notes ts hs).Draws Token.Proper ClassDeclOf.Proper
  | [], hs, h, hd => by
    rw [members]
    exact ⟨h, finishClass_proper hd⟩
  | t :: rest, hs, h, hd => by
    rw [members]
    split
    · exact ⟨all_tail h, finishClass_proper hd⟩
    · have hm : (member fin decl (t :: rest)).Draws Token.Proper _ := member_draws h hd
      split
      · next d rest' more h' heq =>
        rw [heq] at hm
        exact members_draws fin d _ rest' (h'.within hs) hm.1 hm.2
      · next moved rest' more h' heq =>
        rw [heq] at hm
        have _lt := recover_shorter h'
        exact members_draws fin decl _ _ (recover_within h' hs) (recover_all hm) hd
termination_by ts => ts.length
decreasing_by all_goals omega

theorem classHead_draws (h : ∀ t ∈ ts, t.Proper) :
    (classHead fin ts).Draws Token.Proper fun _ => True := by
  have opened (base : Option Token) (ts : List Token) (h : ∀ t ∈ ts, t.Proper) :
      ((expect .leftBrace "before class body" fin ts).start fun _ rest hr =>
        Reply.done base rest [] hr).Draws Token.Proper fun _ => True :=
    .start (expect_draws h) fun mark rest _ hrest _ => ⟨hrest, trivial⟩
  unfold classHead
  simp only
  split
  · exact opened none [] h
  · next t rest =>
    split
    · exact .next (name_draws (all_tail h)) fun base rest _ _ hrest _ =>
        .last (opened (some base) rest hrest)
    · exact opened none (t :: rest) h

theorem classDeclaration_draws (h : ∀ t ∈ ts, t.Proper) :
    (classDeclaration fin ts).Draws Token.Proper ClassDeclOf.Proper := by
  unfold classDeclaration
  refine .start (expect_draws h) fun mark rest hr hrest _ => ?_
  refine .next (name_draws hrest) fun name rest hr _ hrest hname => ?_
  refine .next (classHead_draws hrest) fun base rest hr _ hrest _ => ?_
  exact members_draws fin ⟨name, base, [], []⟩ [] rest hr hrest 
    ⟨hname, List.forall_mem_nil _, List.forall_mem_nil _⟩

theorem declaration_draws {u : SourceUnit} (h : ∀ t ∈ ts, t.Proper) (hu : u.Proper) :
    (declaration fin u ts).Draws Token.Proper SourceUnit.Proper := by
  unfold declaration
  split
  · exact .start (namedItem_draws h) fun g rest _ hrest hg =>
      ⟨hrest, { hu with globals := List.forall_mem_cons.mpr ⟨hg, hu.globals⟩ }⟩
  · exact .start (subroutine_draws h) fun f rest _ hrest hf =>
      ⟨hrest, { hu with functions := List.forall_mem_cons.mpr ⟨hf, hu.functions⟩ }⟩
  · exact .start (classDeclaration_draws h) fun c rest _ hrest hc =>
      ⟨hrest, { hu with classes := List.forall_mem_cons.mpr ⟨hc, hu.classes⟩ }⟩
  · exact h

theorem finishUnit_proper {u : SourceUnit} (h : u.Proper) : (finishUnit u).Proper :=
  ⟨fun t ht => h.globals t (List.mem_reverse.mp ht),
    fun f hf => h.functions f (List.mem_reverse.mp hf),
    fun d hd => h.classes d (List.mem_reverse.mp hd)⟩

theorem empty_proper (file : Option String) : SourceUnit.Proper { file } :=
  ⟨List.forall_mem_nil _, List.forall_mem_nil _, List.forall_mem_nil _⟩

/-- A unit has proper names, whatever had to be dropped. -/
theorem declarations_proper (fin : Token) (u : SourceUnit) (notes : List Diagnostic) :
    (ts : List Token) → (∀ t ∈ ts, t.Proper) → u.Proper → (declarations fin u notes ts).1.Proper
  | [], h, hu => by
    rw [declarations]
    exact finishUnit_proper hu
  | t :: rest, h, hu => by
    have hd : (declaration fin u (t :: rest)).Draws Token.Proper _ := declaration_draws h hu
    rw [declarations]
    split
    · next u' rest' more _lt heq =>
      rw [heq] at hd
      exact declarations_proper fin u' _ rest' hd.1 hd.2
    · next moved rest' more h' heq =>
      rw [heq] at hd
      have _lt := recover_shorter h'
      exact declarations_proper fin u _ _ (recover_all hd) hu
termination_by ts => ts.length
decreasing_by all_goals omega

end Parser

/-! Texts. -/

theorem Lexeme.fault_eq_none (c : Char) (cs : List Char) :
    (first c cs).1.kind = .identifier → (first c cs).1.fault = none := by
  unfold first
  split
  · exact fun _ => rfl
  · intro hk
    rw [comment_kind] at hk
    cases hk
  · intro hk
    rw [string_kind] at hk
    cases hk
  · split
    · exact fun _ => rfl
    · split
      · exact fun _ => rfl
      · split
        · intro _
          unfold number
          dsimp only
          split
          · split <;> rfl
          · rfl
        · split
          · exact fun _ => rfl
          · intro hk
            cases hk

theorem Lexeme.isName_of_mem_all {l : Lexeme} {cs : List Char} (h : l ∈ all cs)
    (hk : l.kind = .identifier) : Spells .identifier l.text := by
  match cs with
  | [] => simp at h
  | c :: cs =>
    have _lt := length_first c cs
    rw [all_cons] at h
    cases h with
    | head =>
      have hs := first_spells c cs (fault_eq_none c cs hk) (by rw [hk]; rfl)
      rwa [hk] at hs
    | tail _ h => exact isName_of_mem_all h hk
termination_by cs.length
decreasing_by exact _lt

theorem scan_proper (source : String) (file : Option String) :
    ∀ t ∈ (scan source file false).1, t.Proper := by
  have hplaced : ∀ x ∈ placed source file, x.1 ∈ Lexeme.all source.toList := by
    intro x hx
    rw [← map_fst_placed source file]
    exact List.mem_map_of_mem hx
  intro t ht hk
  rw [scan_eq] at ht
  rcases List.mem_append.mp ht with ht | ht
  · obtain ⟨x, hx, rfl⟩ := List.mem_map.mp ht
    have := Lexeme.isName_of_mem_all (hplaced x (List.mem_filter.mp hx).1) hk
    rwa [Lss.IsName, Token.ofPlaced, String.toList_ofList]
  · rw [List.mem_singleton.mp ht] at hk
    cases hk

/-- Names in a unit are names of the language, also where something is wrong with the text. -/
theorem SourceUnit.ofSource_proper (source : String) (file : Option String) :
    (ofSource source file).1.Proper := by
  refine Parser.declarations_proper _ _ [] _ (fun t ht => ?_) (Parser.empty_proper _)
  have hkept := (List.takeWhile_prefix _).subset ht
  exact scan_proper source file t (List.mem_filter.mp hkept).1

theorem SourceUnit.ofSource_names (source : String) (file : Option String) :
    ∀ s ∈ (ofSource source file).1.subroutines, Stmt.AllNames Token.Proper s.body.statements :=
  fun s hs => ((ofSource_proper source file).subroutines s hs).names

end Lss
