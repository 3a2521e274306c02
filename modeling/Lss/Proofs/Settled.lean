import Lss.Proofs.DerivedExpr

/-!
# Every choice can be made

Whatever tokens derive, they derive with the choices made, though perhaps another tree: an operator
and its right operand move to the place on the right edge of what stands before them where
precedence wants them, an `else` moves to the nearest `if`, and arguments behind `new T` become its
own. Making choices therefore refuses no tokens.
-/
namespace Lss.Grammar

variable {G : Prop}

/-! A derivation that makes choices is one where they are open. -/

mutual

theorem Expression.relaxed {ts rest : List Token} {e : Expr} :
    Expression G ts e rest → Expression False ts e rest
  | .unary h => .unary h.relaxed
  | .binary hk _ hl hr => .binary hk nofun hl.relaxed hr.relaxed

theorem Unary.relaxed {ts rest : List Token} {e : Expr} :
    Unary G ts e rest → Unary False ts e rest
  | .trailing h => .trailing h.relaxed
  | .number hk ht htext h => .number hk ht htext h.relaxed
  | .operator hk hn h => .operator hk hn h.relaxed

theorem Trailing.relaxed {ts rest : List Token} {e : Expr} :
    Trailing G ts e rest → Trailing False ts e rest
  | .primary h => .primary h.relaxed
  | .member hop hname h => .member hop hname h.relaxed
  | .scope hop hname h => .scope hop hname h.relaxed
  | .dynamic hop h hname => .dynamic hop h.relaxed hname.relaxed
  | .index hleft hright h hi => .index hleft hright h.relaxed hi.relaxed
  | .call hleft hright hfew _ h hes => .call hleft hright hfew nofun h.relaxed hes.relaxed

theorem Primary.relaxed {ts rest : List Token} {e : Expr} :
    Primary G ts e rest → Primary False ts e rest
  | .literal hk => .literal hk
  | .name hk => .name hk
  | .grouping hleft hright h => .grouping hleft hright h.relaxed
  | .array hleft hright h => .array hleft hright h.relaxed
  | .new hword htype => .new hword htype
  | .construct hword htype hleft hright hfew h =>
    .construct hword htype hleft hright hfew h.relaxed

theorem Arguments.relaxed {ts rest : List Token} {es : List Expr} :
    Arguments G ts es rest → Arguments False ts es rest
  | .none => .none
  | .some h hes => .some h.relaxed hes.relaxed

theorem More.relaxed {ts rest : List Token} {es : List Expr} :
    More G ts es rest → More False ts es rest
  | .none => .none
  | .some hcomma h hes => .some hcomma h.relaxed hes.relaxed

end

mutual

theorem Statement.relaxed {ts rest : List Token} {s : Stmt} :
    Statement G ts s rest → Statement False ts s rest
  | .block h => .block h.relaxed
  | .var hword hname hmark => .var hword hname hmark
  | .varInit hword hname heq hmark h => .varInit hword hname heq hmark h.relaxed
  | .return_ hword hmark => .return_ hword hmark
  | .returnValue hword hmark h => .returnValue hword hmark h.relaxed
  | .expr hmark h => .expr hmark h.relaxed
  | .assign heq hmark ht hv => .assign heq hmark ht.relaxed hv.relaxed
  | .if_ hword hleft hright hc h => .if_ hword hleft hright hc.relaxed h.relaxed
  | .ifElse hword hleft hright helse _ hc h harm =>
    .ifElse hword hleft hright helse nofun hc.relaxed h.relaxed harm.relaxed
  | .while_ hword hleft hright hc h => .while_ hword hleft hright hc.relaxed h.relaxed
  | .doWhile hword hwhile hleft hright hmark h hc =>
    .doWhile hword hwhile hleft hright hmark h.relaxed hc.relaxed
  | .foreach hword hleft hx hin hright hc h =>
    .foreach hword hleft hx hin hright hc.relaxed h.relaxed

theorem Block.relaxed {ts rest : List Token} {b : BlockOf Stmt} :
    Block G ts b rest → Block False ts b rest
  | .mk hleft hright h => .mk hleft hright h.relaxed

theorem Statements.relaxed {ts rest : List Token} {ss : List Stmt} :
    Statements G ts ss rest → Statements False ts ss rest
  | .nil => .nil
  | .cons h hss => .cons h.relaxed hss.relaxed

end

variable {ts ms rest : List Token}

theorem Routine.relaxed {s : Subroutine} (h : Routine G ts s rest) : Routine False ts s rest := by
  obtain ⟨hword, hname, hleft, hright, hfew, hnames, hbody⟩ := h
  exact .mk hword hname hleft hright hfew hnames hbody.relaxed

theorem Members.relaxed {properties : List Token} {methods : List Subroutine}
    (h : Members G ts properties methods rest) : Members False ts properties methods rest := by
  induction h with
  | nil => exact .nil
  | property hitem _ ih => exact .property hitem ih
  | method hm _ ih => exact .method hm.relaxed ih

theorem Declarations.relaxed {globals : List Token} {functions : List Subroutine}
    {classes : List ClassDecl} (h : Declarations G ts globals functions classes) :
    Declarations False ts globals functions classes := by
  induction h with
  | nil => exact .nil
  | global hitem _ ih => exact .global hitem ih
  | function hf _ ih => exact .function hf.relaxed ih
  | class_ hc _ ih =>
    obtain ⟨hword, hname, hright, hbase, hms⟩ := hc
    exact .class_ (.mk hword hname hright hbase hms.relaxed) ih

theorem Unit.relaxed {u : SourceUnit} (h : Unit G ts u) : Unit False ts u := by
  obtain ⟨hfin, h⟩ := h
  exact .mk hfin h.relaxed

/-! Operators move to where precedence wants them. -/

theorem topOperator?_binary {op : Token} {o : BinaryOp} (h : op.kind = .binary o) (l r : Expr) :
    (Expr.binary l op r).topOperator? = some o := by
  simp only [Expr.topOperator?, h, TokenKind.operator?]

/-- Operands without operators of their own suit every operator. -/
theorem Unary.fits {ts rest ms rest' : List Token} {l r : Expr} (hl : Unary True ts l rest)
    (hr : Unary True ms r rest') (o : BinaryOp) : Fits o l r := by
  rw [fits_iff, Expr.hold_of_power hl.power]
  have := o.precedence_lt
  have := o.rightFloor_lt
  have := hr.power
  omega

/-- Puts an operator and an operand without one on the right edge of `l`. The operator at the top
stays or is the new one. -/
theorem Expression.insert {ts tail : List Token} {l : Expr} : Expression True ts l tail →
    ∀ {ms rest : List Token} {u : Expr} {op : Token} {o : BinaryOp}, tail = op :: ms →
      op.kind = .binary o → Unary True ms u rest →
      ∃ e, Expression True ts e rest ∧ ∀ i ∈ e.topOperator?, i = o ∨ i ∈ l.topOperator?
  | .unary hl, ms, rest, u, op, o, htail, hop, hu => by
    subst htail
    refine ⟨.binary l op u, .binary hop (fun _ => hl.fits hu o) (.unary hl) (.unary hu), ?_⟩
    intro i hi
    rw [topOperator?_binary hop, Option.mem_some_iff] at hi
    exact .inl hi.symm
  | @Expression.binary _ _ _ _ l r op' o' hop' hfits hl hr, ms, rest, u, op, o, htail, hop,
      hu => by
    obtain ⟨r', hr', htop⟩ := Expression.insert hr htail hop hu
    subst htail
    have htop' := topOperator?_binary hop' l
    by_cases hlo : LeftOf o o'
    · -- the whole of `l op' r` is the left operand
      have hfits' : Fits o (.binary l op' r) u := by
        refine ⟨fun i hi => ?_, (hu.fits hu o).2⟩
        rw [htop', Option.mem_some_iff] at hi
        exact hi ▸ hlo
      refine ⟨_, .binary hop (fun _ => hfits') (.binary hop' hfits hl hr) (.unary hu), ?_⟩
      intro i hi
      rw [topOperator?_binary hop, Option.mem_some_iff] at hi
      exact .inl hi.symm
    · -- the operator belongs further right
      have hfits' : Fits o' l r' := by
        refine ⟨(hfits trivial).1, fun i hi => ?_⟩
        rcases htop i hi with rfl | hi
        · exact rightOf_of_not_leftOf hlo
        · exact (hfits trivial).2 i hi
      refine ⟨.binary l op' r', .binary hop' (fun _ => hfits') hl hr', ?_⟩
      intro i hi
      rw [htop'] at hi ⊢
      exact .inr hi

/-- Two expressions with an operator between them are one, whatever their own operators. -/
theorem Expression.join {ms rest : List Token} {r : Expr} : Expression True ms r rest →
    ∀ {ts : List Token} {l : Expr} {op : Token} {o : BinaryOp}, op.kind = .binary o →
      Expression True ts l (op :: ms) → ∃ e, Expression True ts e rest
  | .unary hu, ts, l, op, o, hop, hl => by
    obtain ⟨e, he, -⟩ := hl.insert rfl hop hu
    exact ⟨e, he⟩
  | .binary hop' _ h h', ts, l, op, o, hop, hl => by
    obtain ⟨e, he⟩ := Expression.join h hop hl
    exact Expression.join h' hop' he

/-! Arguments become those of a construction before them. -/

theorem Primary.fuse {e : Expr} {es : List Expr} {left right : Token}
    (h : Primary True ts e (left :: ms)) (hbare : e.endsBare) (hleft : left.kind = .leftParen)
    (hright : right.kind = .rightParen) (hfew : es.length ≤ ParseFault.maxArguments)
    (hes : Arguments True ms es (right :: rest)) : ∃ e', Primary True ts e' rest ∧
      e'.literal? = none := by
  cases h with
  | new hword htype => exact ⟨_, .construct hword htype hleft hright hfew hes, rfl⟩
  | literal | name | grouping | array | construct => cases hbare

theorem Trailing.fuse {e : Expr} {es : List Expr} {left right : Token}
    (h : Trailing True ts e (left :: ms)) (hbare : e.endsBare) (hleft : left.kind = .leftParen)
    (hright : right.kind = .rightParen) (hfew : es.length ≤ ParseFault.maxArguments)
    (hes : Arguments True ms es (right :: rest)) : ∃ e', Trailing True ts e' rest ∧
      e'.literal? = none := by
  cases h with
  | primary h =>
    obtain ⟨e', he', hn⟩ := h.fuse hbare hleft hright hfew hes
    exact ⟨e', .primary he', hn⟩
  | dynamic hop h hname =>
    simp only [Expr.endsBare, Bool.and_eq_true] at hbare
    obtain ⟨e', he', -⟩ := hname.fuse hbare.2 hleft hright hfew hes
    exact ⟨_, .dynamic hop h he', rfl⟩
  | member | scope =>
    simp only [Expr.endsBare, Bool.and_false, Bool.false_eq_true] at hbare
  | index | call => cases hbare

/-! From the inside out. Signs need that numbers stay numbers, calls that no argument is lost. -/

mutual

theorem Expression.settled {ts rest : List Token} {e : Expr} : Expression False ts e rest →
    ∃ e', Expression True ts e' rest
  | .unary h => by
    obtain ⟨e', he', -⟩ := h.settled
    exact ⟨e', .unary he'⟩
  | .binary hop _ hl hr => by
    obtain ⟨l', hl'⟩ := hl.settled
    obtain ⟨r', hr'⟩ := hr.settled
    exact hr'.join hop hl'

theorem Unary.settled {ts rest : List Token} {e : Expr} : Unary False ts e rest →
    ∃ e', Unary True ts e' rest ∧ e'.literal? = e.literal?
  | .trailing h => by
    obtain ⟨e', he', hl⟩ := h.settled
    exact ⟨e', .trailing he', hl⟩
  | .number hop ht htext h => by
    obtain ⟨e', he', hl⟩ := h.settled
    cases e' with
    | literal t' =>
      cases hl
      exact ⟨_, .number hop ht htext he', rfl⟩
    | _ => cases hl
  | .operator hop hn h => by
    obtain ⟨e', he', hl⟩ := h.settled
    exact ⟨_, .operator hop (hl ▸ hn) he', rfl⟩

theorem Trailing.settled {ts rest : List Token} {e : Expr} : Trailing False ts e rest →
    ∃ e', Trailing True ts e' rest ∧ e'.literal? = e.literal?
  | .primary h => by
    obtain ⟨e', he', hl⟩ := h.settled
    exact ⟨e', .primary he', hl⟩
  | .member hop hname h => by
    obtain ⟨e', he', -⟩ := h.settled
    exact ⟨_, .member hop hname he', rfl⟩
  | .scope hop hname h => by
    obtain ⟨e', he', -⟩ := h.settled
    exact ⟨_, .scope hop hname he', rfl⟩
  | .dynamic hop h hname => by
    obtain ⟨e', he', -⟩ := h.settled
    obtain ⟨name', hname', -⟩ := hname.settled
    exact ⟨_, .dynamic hop he' hname', rfl⟩
  | .index hleft hright h hi => by
    obtain ⟨e', he', -⟩ := h.settled
    obtain ⟨i', hi'⟩ := hi.settled
    exact ⟨_, .index hleft hright he' hi', rfl⟩
  | .call hleft hright hfew _ h hes => by
    obtain ⟨e', he', -⟩ := h.settled
    obtain ⟨es', hes', hlen⟩ := hes.settled
    rw [← hlen] at hfew
    by_cases hbare : e'.endsBare
    · obtain ⟨e'', he'', hl⟩ := he'.fuse hbare hleft hright hfew hes'
      exact ⟨e'', he'', hl⟩
    · have hbare' : e'.endsBare = false := Bool.eq_false_iff.mpr hbare
      exact ⟨_, .call hleft hright hfew (fun _ => hbare') he' hes', rfl⟩

theorem Primary.settled {ts rest : List Token} {e : Expr} : Primary False ts e rest →
    ∃ e', Primary True ts e' rest ∧ e'.literal? = e.literal?
  | .literal hk => ⟨_, .literal hk, rfl⟩
  | .name hk => ⟨_, .name hk, rfl⟩
  | .grouping hleft hright h => by
    obtain ⟨e', he'⟩ := h.settled
    exact ⟨_, .grouping hleft hright he', rfl⟩
  | .array hleft hright h => by
    obtain ⟨es', hes', -⟩ := h.settled
    exact ⟨_, .array hleft hright hes', rfl⟩
  | .new hword htype => ⟨_, .new hword htype, rfl⟩
  | .construct hword htype hleft hright hfew h => by
    obtain ⟨es', hes', hlen⟩ := h.settled
    rw [← hlen] at hfew
    exact ⟨_, .construct hword htype hleft hright hfew hes', rfl⟩

theorem Arguments.settled {ts rest : List Token} {es : List Expr} : Arguments False ts es rest →
    ∃ es', Arguments True ts es' rest ∧ es'.length = es.length
  | .none => ⟨[], .none, rfl⟩
  | .some h hes => by
    obtain ⟨e', he'⟩ := h.settled
    obtain ⟨es', hes', hlen⟩ := hes.settled
    exact ⟨e' :: es', .some he' hes', by simp [hlen]⟩

theorem More.settled {ts rest : List Token} {es : List Expr} : More False ts es rest →
    ∃ es', More True ts es' rest ∧ es'.length = es.length
  | .none => ⟨[], .none, rfl⟩
  | .some hcomma h hes => by
    obtain ⟨e', he'⟩ := h.settled
    obtain ⟨es', hes', hlen⟩ := hes.settled
    exact ⟨e' :: es', .some hcomma he' hes', by simp [hlen]⟩

end

/-! An `else` moves to the nearest `if`. -/

theorem Statement.attach {ts tail : List Token} {s : Stmt} : Statement True ts s tail →
    ∀ {ns rest : List Token} {other : Token} {arm : Stmt}, tail = other :: ns → s.dangles →
      other.kind = .keyword .else_ → Statement True ns arm rest → ∃ s', Statement True ts s' rest
  | @Statement.if_ _ _ _ _ _ _ _ _ body hword hleft hright hc h, ns, rest, other, arm, htail, _,
      helse, harm => by
    have ih := @Statement.attach _ _ _ h
    by_cases hd : body.dangles
    · obtain ⟨body', hbody'⟩ := ih htail hd helse harm
      exact ⟨_, .if_ hword hleft hright hc hbody'⟩
    · have hd' : body.dangles = false := Bool.eq_false_iff.mpr hd
      subst htail
      exact ⟨_, .ifElse hword hleft hright helse (fun _ => hd') hc h harm⟩
  | .ifElse hword hleft hright helse' hbare hc h h', ns, rest, other, arm, htail, hd, helse,
      harm => by
    obtain ⟨arm', harm'⟩ := Statement.attach h' htail hd helse harm
    exact ⟨_, .ifElse hword hleft hright helse' hbare hc h harm'⟩
  | .while_ hword hleft hright hc h, ns, rest, other, arm, htail, hd, helse, harm => by
    obtain ⟨body', hbody'⟩ := Statement.attach h htail hd helse harm
    exact ⟨_, .while_ hword hleft hright hc hbody'⟩
  | .foreach hword hleft hx hin hright hc h, ns, rest, other, arm, htail, hd, helse, harm => by
    obtain ⟨body', hbody'⟩ := Statement.attach h htail hd helse harm
    exact ⟨_, .foreach hword hleft hx hin hright hc hbody'⟩
  | .block _, _, _, _, _, _, hd, _, _ => Bool.noConfusion hd
  | .var _ _ _, _, _, _, _, _, hd, _, _ => Bool.noConfusion hd
  | .varInit _ _ _ _ _, _, _, _, _, _, hd, _, _ => Bool.noConfusion hd
  | .return_ _ _, _, _, _, _, _, hd, _, _ => Bool.noConfusion hd
  | .returnValue _ _ _, _, _, _, _, _, hd, _, _ => Bool.noConfusion hd
  | .expr _ _, _, _, _, _, _, hd, _, _ => Bool.noConfusion hd
  | .assign _ _ _ _, _, _, _, _, _, hd, _, _ => Bool.noConfusion hd
  | .doWhile _ _ _ _ _ _ _, _, _, _, _, _, hd, _, _ => Bool.noConfusion hd

mutual

theorem Statement.settled {ts rest : List Token} {s : Stmt} : Statement False ts s rest →
    ∃ s', Statement True ts s' rest
  | .block h => by
    obtain ⟨b', hb'⟩ := h.settled
    exact ⟨_, .block hb'⟩
  | .var hword hname hmark => ⟨_, .var hword hname hmark⟩
  | .varInit hword hname heq hmark h => by
    obtain ⟨e', he'⟩ := h.settled
    exact ⟨_, .varInit hword hname heq hmark he'⟩
  | .return_ hword hmark => ⟨_, .return_ hword hmark⟩
  | .returnValue hword hmark h => by
    obtain ⟨e', he'⟩ := h.settled
    exact ⟨_, .returnValue hword hmark he'⟩
  | .expr hmark h => by
    obtain ⟨e', he'⟩ := h.settled
    exact ⟨_, .expr hmark he'⟩
  | .assign heq hmark ht hv => by
    obtain ⟨t', ht'⟩ := ht.settled
    obtain ⟨v', hv'⟩ := hv.settled
    exact ⟨_, .assign heq hmark ht' hv'⟩
  | .if_ hword hleft hright hc h => by
    obtain ⟨c', hc'⟩ := hc.settled
    obtain ⟨body', hbody'⟩ := h.settled
    exact ⟨_, .if_ hword hleft hright hc' hbody'⟩
  | .ifElse hword hleft hright helse _ hc h harm => by
    obtain ⟨c', hc'⟩ := hc.settled
    obtain ⟨body', hbody'⟩ := h.settled
    obtain ⟨arm', harm'⟩ := harm.settled
    by_cases hd : body'.dangles
    · obtain ⟨body'', hbody''⟩ := hbody'.attach rfl hd helse harm'
      exact ⟨_, .if_ hword hleft hright hc' hbody''⟩
    · have hd' : body'.dangles = false := Bool.eq_false_iff.mpr hd
      exact ⟨_, .ifElse hword hleft hright helse (fun _ => hd') hc' hbody' harm'⟩
  | .while_ hword hleft hright hc h => by
    obtain ⟨c', hc'⟩ := hc.settled
    obtain ⟨body', hbody'⟩ := h.settled
    exact ⟨_, .while_ hword hleft hright hc' hbody'⟩
  | .doWhile hword hwhile hleft hright hmark h hc => by
    obtain ⟨body', hbody'⟩ := h.settled
    obtain ⟨c', hc'⟩ := hc.settled
    exact ⟨_, .doWhile hword hwhile hleft hright hmark hbody' hc'⟩
  | .foreach hword hleft hx hin hright hc h => by
    obtain ⟨c', hc'⟩ := hc.settled
    obtain ⟨body', hbody'⟩ := h.settled
    exact ⟨_, .foreach hword hleft hx hin hright hc' hbody'⟩

theorem Block.settled {ts rest : List Token} {b : BlockOf Stmt} : Block False ts b rest →
    ∃ b', Block True ts b' rest
  | .mk hleft hright h => by
    obtain ⟨ss', hss'⟩ := h.settled
    exact ⟨_, .mk hleft hright hss'⟩

theorem Statements.settled {ts rest : List Token} {ss : List Stmt} :
    Statements False ts ss rest → ∃ ss', Statements True ts ss' rest
  | .nil => ⟨[], .nil⟩
  | .cons h hss => by
    obtain ⟨s', hs'⟩ := h.settled
    obtain ⟨ss', hss'⟩ := hss.settled
    exact ⟨_, .cons hs' hss'⟩

end

theorem Routine.settled {s : Subroutine} (h : Routine False ts s rest) :
    ∃ s', Routine True ts s' rest := by
  obtain ⟨hword, hname, hleft, hright, hfew, hnames, hbody⟩ := h
  obtain ⟨body', hbody'⟩ := hbody.settled
  exact ⟨_, .mk hword hname hleft hright hfew hnames hbody'⟩

theorem Members.settled {properties : List Token} {methods : List Subroutine}
    (h : Members False ts properties methods rest) :
    ∃ methods', Members True ts properties methods' rest := by
  induction h with
  | nil => exact ⟨_, .nil⟩
  | property hitem _ ih =>
    obtain ⟨methods', hms⟩ := ih
    exact ⟨_, .property hitem hms⟩
  | method hm _ ih =>
    obtain ⟨m', hm'⟩ := hm.settled
    obtain ⟨methods', hms⟩ := ih
    exact ⟨_, .method hm' hms⟩

theorem Declarations.settled {globals : List Token} {functions : List Subroutine}
    {classes : List ClassDecl} (h : Declarations False ts globals functions classes) :
    ∃ functions' classes', Declarations True ts globals functions' classes' := by
  induction h with
  | nil => exact ⟨_, _, .nil⟩
  | global hitem _ ih =>
    obtain ⟨functions', classes', h⟩ := ih
    exact ⟨_, _, .global hitem h⟩
  | function hf _ ih =>
    obtain ⟨f', hf'⟩ := hf.settled
    obtain ⟨functions', classes', h⟩ := ih
    exact ⟨_, _, .function hf' h⟩
  | class_ hc _ ih =>
    obtain ⟨hword, hname, hright, hbase, hms⟩ := hc
    obtain ⟨methods', hms'⟩ := hms.settled
    obtain ⟨functions', classes', h⟩ := ih
    exact ⟨_, _, .class_ (.mk hword hname hright hbase hms') h⟩

/-- Tokens that derive a unit derive one with every choice made. -/
theorem Unit.settled {u : SourceUnit} (h : Unit False ts u) : ∃ u', Unit True ts u' := by
  obtain ⟨hfin, h⟩ := h
  obtain ⟨functions', classes', h'⟩ := h.settled
  exact ⟨_, .mk hfin h'⟩

end Lss.Grammar
