import Lss.Proofs.PrintedExpr

/-!
# Texts of trees: statements, declarations, units

The text of a formed unit is made of its tokens, at any indentation.
-/
namespace Lss

def Gap (cs : List Char) : Prop := cs ≠ [] ∧ ∀ c ∈ cs, Text.isBlank c

theorem Gap.apart {cs : List Char} (h : Gap cs) (next : List Char) : Apart (cs ++ next) := by
  cases cs with
  | nil => exact absurd rfl h.1
  | cons c cs => exact .of_blank (h.2 c List.mem_cons_self)

theorem gap_space : Gap " ".toList := ⟨by decide, List.all_eq_true.mp (by decide)⟩

theorem Gap.prints {cs : List Char} (h : Gap cs) : Prints cs [] := .blanks h.2

theorem Token.IsName.prints {t : Token} (h : t.IsName) : PrintsApart t.text.toList [t.bare] :=
  .token h.spelled (by rw [h.1]; rfl)

/-- A keyword and a condition or the like in parentheses. -/
theorem prints_guard {cs : List Char} {bs : List Token} (k : Keyword) (h : PrintsApart cs bs) :
    Prints (k.text.toList ++ ([' ', '('] ++ (cs ++ [')']))) (guardTokens k bs) :=
  k.prints.append (fun _ => .of_blank (by decide)) ((Prints.space.append .leftParen).append
    (h.append (fun _ => Expr.bracket_apart (by decide) _) .rightParen))

/-- A keyword, a name and a semicolon. -/
theorem prints_item {name : Token} (k : Keyword) (h : name.IsName) :
    Prints (k.text.toList ++ ([' '] ++ (name.text.toList ++ [';']))) (itemTokens k name) := by
  exact k.prints.append (fun _ => .of_blank (by decide)) (Prints.space.append
    (h.prints.append (fun _ => Expr.bracket_apart (by decide) _) .semicolon))

/-- An expression and a semicolon. -/
theorem prints_semicolon {cs : List Char} {bs : List Token} (h : PrintsApart cs bs) :
    Prints (cs ++ [';']) (bs ++ [Token.of .semicolon]) :=
  h.append (fun _ => Expr.bracket_apart (by decide) _) .semicolon

/-- A mark between blanks. -/
theorem prints_spaced (kind : TokenKind) {text : String} (hm : kind.isMark)
    (ht : kind.lexeme? = some text) :
    Prints ([' '] ++ (text.toList ++ [' '])) [.of kind] := by
  intro next ts hn
  have hcalm : Calm ([' '] ++ next) := by
    rintro _ ⟨⟩
    decide
  have := (Prints.space next ts hn).mark hm ht fun _ => hcalm
  simpa using Prints.space _ _ this

/-- The text of a block, which is also what stands behind the head of a subroutine. -/
def Stmt.blockText (unit : String) (level : Nat) (ss : List Stmt) : String :=
  "\x7b\n" ++ lines "" unit (level + 1) ss ++ indent unit level ++ "\x7d"

/-! What statements are written as, in the pieces that their tokens make. -/

namespace Stmt

variable (unit : String) (level : Nat)

theorem toList_return_none (s : Span) :
    (text unit level (.return_ none s)).toList = Keyword.return_.text.toList ++ [';'] := by
  change "return;".toList = _
  simp [Keyword.text]

theorem toList_return_some (e : Expr) (s : Span) :
    (text unit level (.return_ (some e) s)).toList
      = Keyword.return_.text.toList ++ ([' '] ++ (e.text.toList ++ [';'])) := by
  change ("return " ++ e.text ++ ";").toList = _
  simp [Keyword.text]

theorem toList_if (c : Expr) (body : Stmt) (s : Span) :
    (text unit level (.if_ (some c) body none s)).toList
      = Keyword.if_.text.toList ++ ([' ', '('] ++ (c.text.toList ++ [')'])) ++
        ((lead unit level body).toList ++ (text unit (bodyLevel level body) body).toList) := by
  change ("if (" ++ c.text ++ ")" ++ lead unit level body
    ++ text unit (bodyLevel level body) body).toList = _
  simp [Keyword.text]

theorem toList_ifElse (c : Expr) (body arm : Stmt) (s s' : Span) :
    (text unit level (.if_ (some c) body (some (.if_ none arm none s')) s)).toList
      = Keyword.if_.text.toList ++ ([' ', '('] ++ (c.text.toList ++ [')'])) ++
        ((lead unit level body).toList ++ ((text unit (bodyLevel level body) body).toList ++
          ((resume unit level body).toList ++ (Keyword.else_.text.toList ++
            ((armLead unit level arm).toList ++
              (text unit (armLevel level arm) arm).toList))))) := by
  change ("if (" ++ c.text ++ ")" ++ lead unit level body
    ++ text unit (bodyLevel level body) body ++ resume unit level body ++ "else"
    ++ armLead unit level arm ++ text unit (armLevel level arm) arm).toList = _
  simp [Keyword.text]

theorem toList_while (c : Expr) (body : Stmt) :
    (text unit level (.while_ c body)).toList
      = Keyword.while_.text.toList ++ ([' ', '('] ++ (c.text.toList ++ [')'])) ++
        ((lead unit level body).toList ++ (text unit (bodyLevel level body) body).toList) := by
  change ("while (" ++ c.text ++ ")" ++ lead unit level body
    ++ text unit (bodyLevel level body) body).toList = _
  simp [Keyword.text]

theorem toList_doWhile (c : Expr) (body : Stmt) :
    (text unit level (.doWhile body c)).toList = Keyword.do_.text.toList ++
      ((lead unit level body).toList ++ ((text unit (bodyLevel level body) body).toList ++
        ((resume unit level body).toList ++ (Keyword.while_.text.toList ++
          ([' ', '('] ++ (c.text.toList ++ [')'])) ++ [';'])))) := by
  change ("do" ++ lead unit level body ++ text unit (bodyLevel level body) body
    ++ resume unit level body ++ "while (" ++ c.text ++ ");").toList = _
  simp [Keyword.text]

theorem toList_foreach (x : Token) (c : Expr) (body : Stmt) :
    (text unit level (.foreach x c body)).toList = Keyword.foreach.text.toList ++
      ([' ', '('] ++ ((x.text.toList ++ ([' '] ++ (Keyword.in_.text.toList ++
        ([' '] ++ c.text.toList)))) ++ [')'])) ++
        ((lead unit level body).toList ++ (text unit (bodyLevel level body) body).toList) := by
  change ("foreach (" ++ x.text ++ " in " ++ c.text ++ ")" ++ lead unit level body
    ++ text unit (bodyLevel level body) body).toList = _
  simp [Keyword.text]

theorem toList_assign (t v : Expr) : (text unit level (.assign t v)).toList
    = t.text.toList ++ ([' '] ++ ("=".toList ++ [' ']) ++ (v.text.toList ++ [';'])) := by
  change (t.text ++ " = " ++ v.text ++ ";").toList = _
  simp

theorem toList_var_none (name : Token) : (text unit level (.var name none)).toList
    = Keyword.var.text.toList ++ ([' '] ++ (name.text.toList ++ [';'])) := by
  change ("var " ++ name.text ++ ";").toList = _
  simp [Keyword.text]

theorem toList_var_some (name : Token) (e : Expr) :
    (text unit level (.var name (some e))).toList = Keyword.var.text.toList ++
      ([' '] ++ (name.text.toList ++ ([' '] ++ ("=".toList ++ [' ']) ++
        (e.text.toList ++ [';'])))) := by
  change ("var " ++ name.text ++ " = " ++ e.text ++ ";").toList = _
  simp [Keyword.text]

end Stmt

section

variable {A B : Prop} {unit : String} (hu : ∀ c ∈ unit.toList, Text.isBlank c)

namespace Stmt

include hu

theorem blank_of_mem_indent (level : Nat) : ∀ c ∈ (indent unit level).toList, Text.isBlank c := by
  intro c hc
  rw [indent, String.toList_join] at hc
  obtain ⟨s, hs, hc⟩ := List.mem_flatMap.mp hc
  rw [(List.mem_replicate.mp hs).2] at hc
  exact hu c hc

theorem prints_indent (level : Nat) : Prints (indent unit level).toList [] :=
  .blanks (blank_of_mem_indent hu level)

theorem gap_newline (level : Nat) : Gap ("\n" ++ indent unit level).toList := by
  refine ⟨by simp, fun c hc => ?_⟩
  rw [String.toList_append] at hc
  rcases List.mem_append.mp hc with hc | hc
  · rw [List.mem_singleton.mp hc]
    decide
  · exact blank_of_mem_indent hu level c hc

theorem gap_lead (level : Nat) (body : Stmt) : Gap (lead unit level body).toList := by
  unfold lead
  split
  · exact gap_space
  · exact gap_newline hu (level + 1)

theorem gap_resume (level : Nat) (body : Stmt) : Gap (resume unit level body).toList := by
  unfold resume
  split
  · exact gap_space
  · exact gap_newline hu level

theorem gap_armLead (level : Nat) (arm : Stmt) : Gap (armLead unit level arm).toList := by
  unfold armLead
  split
  · exact gap_space
  · exact gap_lead hu level arm

/-- Lines of statements, each of which is made of its tokens. -/
theorem prints_lines {ss : List Stmt}
    (h : ∀ s ∈ ss, ∀ level, Prints (s.text unit level).toList s.tokens) (out : String)
    (level : Nat) : ∃ cs, (lines out unit level ss).toList = out.toList ++ cs ∧
      Prints cs (tokensAll ss) := by
  induction ss generalizing out with
  | nil => exact ⟨[], (List.append_nil _).symm, .nil⟩
  | cons s ss ih =>
    obtain ⟨cs, hcs, hp⟩ := ih (fun s hs => h s (List.mem_cons_of_mem _ hs))
      (out ++ indent unit level ++ text unit level s ++ "\n")
    refine ⟨(indent unit level).toList ++ ((text unit level s).toList ++ (['\n'] ++ cs)),
      hcs.trans (by simp), ?_⟩
    exact (prints_indent hu level).append
      ((h s List.mem_cons_self level).append (Prints.newline.append hp))

/-- The text of a block. -/
theorem prints_block {ss : List Stmt}
    (h : ∀ s ∈ ss, ∀ level, Prints (s.text unit level).toList s.tokens) (level : Nat) :
    Prints (blockText unit level ss).toList
      (.of .leftBrace :: (tokensAll ss ++ [Token.of .rightBrace])) := by
  obtain ⟨cs, hcs, hp⟩ := prints_lines hu h "" (level + 1)
  have htext : (blockText unit level ss).toList
      = ['\x7b'] ++ (['\n'] ++ (cs ++ ((indent unit level).toList ++ ['\x7d']))) := by
    simp [blockText, hcs]
  rw [htext]
  exact Prints.leftBrace.append
    (Prints.newline.append (hp.append ((prints_indent hu level).append .rightBrace)))

/-- The text of a formed statement is made of its tokens. -/
theorem Formed.prints {s : Stmt} (h : s.Formed IsName A B) (level : Nat) :
    Prints (s.text unit level).toList s.tokens := by
  induction h generalizing level with
  | @block ss s _ ih => exact prints_block hu ih level
  | @expr e he =>
    have htext : (text unit level (.expr e)).toList = e.text.toList ++ [';'] :=
      String.toList_append
    rw [htext]
    exact prints_semicolon he.prints
  | @return_ value s hv =>
    cases value with
    | none =>
      rw [toList_return_none]
      exact prints_semicolon Keyword.return_.prints
    | some e =>
      rw [toList_return_some]
      exact Keyword.return_.prints.append (fun _ => .of_blank (by decide))
        (Prints.space.append (prints_semicolon (hv e rfl).prints))
  | @if_ c body s hc hb ih =>
    rw [toList_if]
    exact (prints_guard .if_ hc.prints).append ((gap_lead hu level body).prints.append (ih _))
  | @ifElse c body arm s s' hc hb _ ha ihb iha =>
    have helse : Prints (Keyword.else_.text.toList ++ ((armLead unit level arm).toList ++
        (text unit (armLevel level arm) arm).toList)) (.of (.keyword .else_) :: arm.tokens) := by
      refine Keyword.else_.prints.append (fun next => ?_)
        ((gap_armLead hu level arm).prints.append (iha _))
      rw [List.append_assoc]
      exact (gap_armLead hu level arm).apart _
    rw [toList_ifElse]
    exact (prints_guard .if_ hc.prints).append ((gap_lead hu level body).prints.append
      ((ihb _).append ((gap_resume hu level body).prints.append helse)))
  | @while_ c body hc hb ih =>
    rw [toList_while]
    exact (prints_guard .while_ hc.prints).append ((gap_lead hu level body).prints.append (ih _))
  | @doWhile c body hb hc ih =>
    rw [toList_doWhile]
    refine Keyword.do_.prints.append (fun next => ?_) ((gap_lead hu level body).prints.append
      ((ih _).append ((gap_resume hu level body).prints.append
        ((prints_guard .while_ hc.prints).append .semicolon))))
    rw [List.append_assoc]
    exact (gap_lead hu level body).apart _
  | @foreach x c body hk hx hc hb ih =>
    have hname : PrintsApart x.text.toList [x.bare] := Token.IsName.prints ⟨hk, hx⟩
    have hin := Keyword.in_.prints.append_apart (fun _ _ => .of_blank (by decide))
      (Prints.space.append_apart hc.prints)
    have hinner := hname.append_apart (fun _ _ => .of_blank (by decide))
      (Prints.space.append_apart hin)
    rw [toList_foreach]
    exact (prints_guard .foreach hinner).append ((gap_lead hu level body).prints.append (ih _))
  | @assign t v ht hv =>
    rw [toList_assign]
    exact ht.prints.append (fun _ => .of_blank (by decide))
      ((prints_spaced .assign rfl rfl).append (prints_semicolon hv.prints))
  | @var name init hk hn hi =>
    have hname : PrintsApart name.text.toList [name.bare] := Token.IsName.prints ⟨hk, hn⟩
    cases init with
    | none =>
      rw [toList_var_none]
      exact prints_item .var ⟨hk, hn⟩
    | some e =>
      rw [toList_var_some]
      exact Keyword.var.prints.append (fun _ => .of_blank (by decide)) (Prints.space.append
        (hname.append (fun _ => .of_blank (by decide))
          ((prints_spaced .assign rfl rfl).append (prints_semicolon (hi e rfl).prints))))

end Stmt

end

/-! Declarations. -/

theorem intercalate_eq_commas (css : List (List Char)) :
    [',', ' '].intercalate css = commas css := by
  cases css with
  | nil => rfl
  | cons cs css =>
    induction css generalizing cs with
    | nil => simp [commas, moreCommas]
    | cons ds css ih =>
      rw [List.intercalate_cons_cons, ih ds]
      simp [commas, moreCommas]

theorem toList_commaList (ts : List Token) :
    (commaList ts).toList = commas (ts.map (·.text.toList)) := by
  rw [commaList, String.toList_intercalate, List.map_map]
  exact intercalate_eq_commas _

/-- Lines of items that start with the same keyword, written one after another by `f`. -/
theorem prints_items {names : List Token} (h : ∀ t ∈ names, t.IsName) (k : Keyword)
    (f : String → Token → String) {gap : List Char} (hgap : ∀ c ∈ gap, Text.isBlank c)
    (hf : ∀ out t, (f out t).toList = out.toList ++ (gap ++
      ((k.text.toList ++ ([' '] ++ (t.text.toList ++ [';']))) ++ ['\n']))) :
    ∃ cs, (∀ out, (names.foldl f out).toList = out.toList ++ cs) ∧
      Prints cs (names.flatMap (itemTokens k)) := by
  induction names with
  | nil => exact ⟨[], by simp, .nil⟩
  | cons t names ih =>
    obtain ⟨cs, hcs, hp⟩ := ih fun t ht => h t (List.mem_cons_of_mem _ ht)
    refine ⟨gap ++ ((k.text.toList ++ ([' '] ++ (t.text.toList ++ [';']))) ++ (['\n'] ++ cs)),
      fun out => by rw [List.foldl_cons, hcs, hf]; simp, ?_⟩
    exact (Prints.blanks hgap).append ((prints_item k (h t List.mem_cons_self)).append
      (Prints.newline.append hp))

theorem prints_names {ts : List Token} (h : ∀ t ∈ ts, t.IsName) :
    PrintsApart (commaList ts).toList (commaTokens ts) := by
  rw [toList_commaList]
  refine prints_commas (fun t => [t.bare]) (fun t ht => (h t ht).prints) ?_
  cases ts <;> rfl

def baseText : Option Token → List Char
  | some base => [' ', ':', ' '] ++ base.text.toList
  | none => []

theorem prints_base {name : Token} {base : Option Token} (hname : name.IsName)
    (hbase : ∀ t ∈ base, t.IsName) :
    PrintsApart (name.text.toList ++ baseText base) (name.bare :: baseTokens base) := by
  cases base with
  | none =>
    rw [baseText, List.append_nil]
    exact hname.prints
  | some base =>
    exact hname.prints.append_apart (fun _ _ => .of_blank (by decide))
      ((prints_spaced .colon rfl rfl).append_apart (hbase base rfl).prints)

/-- Declarations, written one after another with empty lines between them. -/
theorem prints_declarations {unit : String} {ss : List Stmt}
    (h : ∀ s ∈ ss, Prints (s.text unit 0).toList s.tokens)
    (acc : String × Bool) : ∃ cs,
      (ss.foldl (fun acc s =>
        (acc.1 ++ (if acc.2 then "" else "\n") ++ s.text unit 0 ++ "\n", false)) acc).1.toList
        = acc.1.toList ++ cs ∧ Prints cs (ss.flatMap Stmt.tokens) := by
  induction ss generalizing acc with
  | nil => exact ⟨[], by simp, .nil⟩
  | cons s ss ih =>
    obtain ⟨cs, hcs, hp⟩ := ih (fun s hs => h s (List.mem_cons_of_mem _ hs))
      (acc.1 ++ (if acc.2 then "" else "\n") ++ s.text unit 0 ++ "\n", false)
    refine ⟨(if acc.2 then "" else "\n").toList ++ ((s.text unit 0).toList ++ (['\n'] ++ cs)),
      by rw [List.foldl_cons, hcs]; simp, ?_⟩
    have hgap : Prints (if acc.2 then "" else "\n").toList [] := by
      cases acc.2 with
      | true => exact .nil
      | false => exact .newline
    exact hgap.append ((h s List.mem_cons_self).append (Prints.newline.append hp))

section

variable {A B : Prop}

theorem SubroutineOf.Formed.prints_head {s : Subroutine} (hs : s.Formed A B) :
    Prints s.headText.toList s.headTokens := by
  have htext : s.headText.toList = Keyword.function.text.toList ++ ([' '] ++ (s.name.text.toList ++
      (['('] ++ ((commaList s.parameters).toList ++ ([')'] ++ [' ']))))) := by
    simp [SubroutineOf.headText, Keyword.text]
  have hparams := (prints_names hs.parameters).append (fun _ => Expr.bracket_apart (by decide) _)
    (Prints.rightParen.append .space)
  rw [htext]
  exact Keyword.function.prints.append (fun _ => .of_blank (by decide)) (Prints.space.append
    (hs.name.prints.append (fun _ => Expr.bracket_apart (by decide) _)
      (Prints.leftParen.append hparams)))

variable {unit : String} (hu : ∀ c ∈ unit.toList, Text.isBlank c)

include hu

/-- The text of a formed subroutine is made of its tokens. -/
theorem SubroutineOf.Formed.prints {s : Subroutine} (hs : s.Formed A B) (level : Nat) :
    Prints (s.headText ++ Stmt.blockText unit level s.body.statements).toList
      (Stmt.subroutine s).tokens := by
  have hblock := Stmt.prints_block hu (fun s h level => (hs.body s h).prints hu level) level
  rw [String.toList_append]
  exact hs.prints_head.append hblock

theorem prints_methods {ms : List Subroutine} (hms : ∀ m ∈ ms, m.Formed A B) (out : String)
    (level : Nat) (isFirst : Bool) : ∃ cs,
      (Stmt.methodLines out unit level isFirst ms).toList = out.toList ++ cs ∧
      Prints cs (Stmt.methodTokens ms) := by
  induction ms generalizing out isFirst with
  | nil => exact ⟨[], (List.append_nil _).symm, .nil⟩
  | cons m ms ih =>
    have hm := hms m List.mem_cons_self
    obtain ⟨name, names, ⟨ss, sp⟩⟩ := m
    obtain ⟨cs, hcs, hp⟩ := ih (fun m hm => hms m (List.mem_cons_of_mem _ hm)) _ false
    refine ⟨(if isFirst then "" else "\n").toList ++ ((Stmt.indent unit level).toList ++
      ((SubroutineOf.headText ⟨name, names, BlockOf.mk ss sp⟩ ++
        Stmt.blockText unit level ss).toList ++ (['\n'] ++ cs))), ?_, ?_⟩
    · refine hcs.trans ?_
      simp [Stmt.blockText]
    · have hgap : Prints (if isFirst then "" else "\n").toList [] := by
        cases isFirst with
        | true => exact .nil
        | false => exact .newline
      have := hgap.append ((Stmt.prints_indent hu level).append
        ((hm.prints hu level).append (Prints.newline.append hp)))
      simpa [Stmt.methodTokens, Stmt.tokens] using this

theorem ClassDeclOf.Formed.prints_head {c : ClassDecl} (hc : c.Formed A B) (level : Nat) :
    Prints (ClassDeclOf.headText unit level c).toList c.headTokens := by
  obtain ⟨cs, hcs, hp⟩ := prints_items hc.properties .property
    (fun out p => out ++ Stmt.indent unit (level + 1) ++ "property " ++ p.text ++ ";\n")
    (Stmt.blank_of_mem_indent hu (level + 1)) (by simp [Keyword.text])
  have htext : (ClassDeclOf.headText unit level c).toList
      = Keyword.class_.text.toList ++ ([' '] ++ ((c.name.text.toList ++ baseText c.base) ++
        ([' '] ++ (['\x7b'] ++ (['\n'] ++ cs))))) := by
    rw [ClassDeclOf.headText, hcs]
    cases c.base <;> simp [Keyword.text, baseText]
  have hrest := Prints.space.append (Prints.leftBrace.append (Prints.newline.append hp))
  have hnamed := (prints_base hc.name hc.base).append (fun _ => .of_blank (by decide)) hrest
  rw [htext]
  exact Keyword.class_.prints.append (fun _ => .of_blank (by decide)) (Prints.space.append hnamed)

/-- The text of a formed class is made of its tokens. -/
theorem ClassDeclOf.Formed.prints {c : ClassDecl} (hc : c.Formed A B) (level : Nat) :
    Prints ((Stmt.classDecl c).text unit level).toList (Stmt.classDecl c).tokens := by
  obtain ⟨name, base, properties, methods⟩ := c
  obtain ⟨cs, hcs, hp⟩ := prints_methods hu hc.methods
    (ClassDeclOf.headText unit level ⟨name, base, properties, methods⟩) (level + 1)
    properties.isEmpty
  have htext : ((Stmt.classDecl ⟨name, base, properties, methods⟩).text unit level).toList
      = (ClassDeclOf.headText unit level ⟨name, base, properties, methods⟩).toList ++
        (cs ++ ((Stmt.indent unit level).toList ++ ['\x7d'])) := by
    change (Stmt.methodLines _ unit (level + 1) properties.isEmpty methods
      ++ Stmt.indent unit level ++ "\x7d").toList = _
    simp [hcs]
  rw [htext]
  exact (hc.prints_head hu level).append
    (hp.append ((Stmt.prints_indent hu level).append .rightBrace))

/-! Units. -/

theorem SubroutineOf.Formed.prints_declaration {s : Subroutine} (hs : s.Formed A B) (level : Nat) :
    Prints ((Stmt.subroutine s).text unit level).toList (Stmt.subroutine s).tokens := by
  have htext : (Stmt.subroutine s).text unit level
      = s.headText ++ Stmt.blockText unit level s.body.statements := by
    obtain ⟨name, parameters, ⟨ss, sp⟩⟩ := s
    change SubroutineOf.headText _ ++ "\x7b\n" ++ Stmt.lines "" unit (level + 1) ss
      ++ Stmt.indent unit level ++ "\x7d" = _
    simp only [Stmt.blockText, String.append_assoc]
  rw [htext]
  exact hs.prints hu level

/-- The text of a formed unit is made of its tokens. -/
theorem SourceUnit.Formed.lexed {u : SourceUnit} (h : u.Formed A B) :
    Lexed (u.text unit).toList u.tokens := by
  obtain ⟨gs, hgs, hg⟩ := prints_items h.globals .global
    (fun out g => out ++ "global " ++ g.text ++ ";\n") (fun _ h => absurd h List.not_mem_nil)
    (by simp [Keyword.text])
  have hfunctions : ∀ s ∈ u.functions.map Stmt.subroutine,
      Prints (s.text unit 0).toList s.tokens := by
    intro s hs
    obtain ⟨f, hf, rfl⟩ := List.mem_map.mp hs
    exact (h.functions f hf).prints_declaration hu 0
  have hclasses : ∀ s ∈ u.classes.map Stmt.classDecl,
      Prints (s.text unit 0).toList s.tokens := by
    intro s hs
    obtain ⟨c, hc, rfl⟩ := List.mem_map.mp hs
    exact (h.classes c hc).prints hu 0
  obtain ⟨fs, hfs, hf⟩ := prints_declarations hfunctions (_, u.globals.isEmpty)
  obtain ⟨cs, hcs, hc⟩ := prints_declarations hclasses _
  have htext : (u.text unit).toList = gs ++ (fs ++ cs) := by
    rw [SourceUnit.text, hcs, hfs, hgs]
    simp
  rw [htext]
  simpa [SourceUnit.tokens, List.flatMap_map] using hg.append (hf.append hc) [] [] .nil

end

end Lss
