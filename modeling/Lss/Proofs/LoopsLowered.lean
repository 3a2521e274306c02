import Lss.Proofs.Sheltered

/-!
# Loops over collections lowered

Lowering gives code in which the loops over collections of the source are told apart, and a finished
body has the control flow of its source.
-/
namespace Lss

open Lower

section

variable {env : Env} {counts : Nat → Prop} {loops : List Code.Loop} {taken : List Nat}
  {a b : List Flow} {x y test body : Code} {span : Span}

namespace Code

theorem Unfolds.marked (h : Unfolds counts loops taken a x) (s : Stmt) :
    Unfolds counts loops taken a (s.withMark env x) := by
  unfold Stmt.withMark lineMark
  split
  · exact .append (.mark _) h
  · exact h

theorem Unfolds.reverse_append {acc : Code} (h : Unfolds counts loops taken a acc.reverse)
    (k : Unfolds counts loops taken b x) :
    Unfolds counts loops taken (a ++ b) (x.reverse ++ acc).reverse := by
  rw [List.reverse_append, List.reverse_reverse]
  exact h.append k

/-- A loop that tests first closes over its test and its body. -/
theorem loopCode_distances {code : Code} (h : loopCode test body span = .ok code) :
    ∃ out back : Int16,
      code = test ++ .branch .ifFalse out :: body ++ [Instruction.branch .always back] ∧
      out.toInt = Code.size body + 3 ∧ back.toInt = -(Code.size test + Code.size body + 6) := by
  obtain ⟨out, back, hout, hback, rfl⟩ := loopCode_eq_ok.mp h
  refine ⟨out, back, rfl, ?_, ?_⟩
  · rw [Branch.toInt_forward hout]
    simp
  · rw [Branch.toInt_backward hback]
    simp only [Code.size_append, Code.size_cons, Instruction.size_branch]
    omega

end Code

namespace Naming

open Code

variable {L M : Ledger} {all : List Declaration}

/-- The rounds of a loop, behind what its head has set. -/
theorem Makes.rounds {l : Code.Loop} {s : Stmt} (hfresh : l.Fresh counts taken)
    (hitems : Guarded counts loops 1 l.items)
    (hbody : Makes counts (l :: loops) L M (stmtOver (Lexicon.keeper env) env s)
      (Unfolds counts (l :: loops) (l.index.toNat :: l.last.toNat :: taken) a)) :
    Makes counts (l :: loops) L M (do
      let code ← s.withMark env <$> stmtOver (Lexicon.keeper env) env s
      let loop ← liftM (Lower.ofExcept (loopCode l.test (code ++ l.advance) span))
      return [.pushZero, .setVariable (.ofLocal l.index)] ++ l.items ++
        [Instruction.property .length, .pushInt8 1, .binary .sub, .setVariable (.ofLocal l.last)] ++
        loop)
      (Unfolds counts loops taken [.foreach a]) := by
  refine (hbody.map fun x hx => hx.marked s).bind fun code hcode =>
    (Makes.ofExcept _).bind fun loop hloop => .pure ?_
  obtain ⟨out, back, rfl, hout, hback⟩ := loopCode_distances hloop
  have heq : l.start ++ l.bound ++ l.rounds code out back =
      [.pushZero, .setVariable (.ofLocal l.index)] ++ l.items ++
        [Instruction.property .length, .pushInt8 1, .binary .sub, .setVariable (.ofLocal l.last)] ++
        (l.test ++ .branch .ifFalse out :: (code ++ l.advance)
          ++ [Instruction.branch .always back]) := by
    simp [Code.Loop.start, Code.Loop.bound, Code.Loop.less, Code.Loop.rounds]
  rw [← heq]
  exact .loop hfresh hitems hcode hout hback

/-- The head of a loop computes the collection as outside of the loop, and the elements are read
with its code. -/
theorem Makes.foreach (hg : env.globals.Exact) (hthis : env.owner.isSome → ¬ counts 0)
    (hsorts : Declaration.Sorts counts all) {element : Token} {collection : Expr} {s : Stmt}
    (hcollection : collection.Names Token.Proper) (hmade : (L.loop element).made ⊆ all)
    (htaken : ∀ n ∈ taken, n < L.slots)
    (hbody : ∀ l : Code.Loop, l.index.toNat = L.slots → l.last.toNat = L.slots + 1 →
      Makes counts (l :: loops) (L.loop element) M (stmtOver (Lexicon.keeper env) env s)
        (Unfolds counts (l :: loops) (l.index.toNat :: l.last.toNat :: taken) a)) :
    Makes counts loops L M (stmtOver (Lexicon.keeper env) env (.foreach element collection s))
      (Unfolds counts loops taken [.foreach a]) := by
  have hhidden (purpose : String) (hpurpose : purpose ∈ ["index", "max"]) (m n : Nat)
      (hmem : ⟨L.frames, "$" ++ purpose ++ toString m, some n, .synthetic⟩ ∈
        (L.loop element).made) : n < 0x8000 ∧ counts n := by
    obtain ⟨hn, hcounts⟩ := hsorts _ (hmade hmem) n rfl
    exact ⟨hn, hcounts.mpr (Declaration.ofLoop_hidden hpurpose _ _ _)⟩
  obtain ⟨hindex, hindexes⟩ := hhidden "index" (by simp) (L.hidden + 1) L.slots
    (by simp [Ledger.loop, Ledger.hide, Ledger.element, Ledger.enter])
  obtain ⟨hlast, hlasts⟩ := hhidden "max" (by simp) (L.hidden + 2) (L.slots + 1)
    (by simp [Ledger.loop, Ledger.hide, Ledger.element, Ledger.enter])
  intro p ρ hρ
  simp only [stmtOver]
  -- names mean again what they meant outside when the loop is left
  refine .bind (R := fun q r => p.Interns q ∧ r.2.slots = M.slots ∧
    Unfolds counts loops taken [.foreach a] r.1) ?_ fun q r _ h =>
      .pure ⟨h.1, ⟨h.2.1, hρ.shelters.later h.1⟩, h.2.2⟩
  have hfirst := (hρ.enter.hide hindex L.frames "index")
  have hsecond := (hfirst.hide hlast L.frames "max")
  have hi : _ = L.slots := hρ.enter.toNat_nextSlot hindex
  have hm : _ = L.slots + 1 := hfirst.toNat_nextSlot hlast
  have hread : lowerExpr env (Meanings.read env ((({ ρ with names := [] :: ρ.names } : Lexicon).hide
      "index").hide "max").names) collection = lowerExpr env (ρ.names.read env) collection := by
    refine lowerExpr_congr collection (hcollection.imp fun t ht hk => ?_)
    have hname := (ht hk).head_ne_dollar rfl
    rw [Lexicon.read_hide _ _ hname, Lexicon.read_hide _ _ hname]
    rfl
  obtain ⟨hrepeats, hitems⟩ := hρ.shelters.lowerExpr hg hthis hcollection
  rw [bind_apply, Lexicon.hidden_apply, pure_bind, bind_apply, Lexicon.hidden_apply, pure_bind,
    bind_apply, exprOver_reads collection, hread, bind_map_left]
  refine .bind hitems.runs ?_
  rintro q items - ⟨hrun, hpq, hguarded⟩
  generalize hfirstSlot : Lexicon.nextSlot _ = index at hi ⊢
  generalize hlastSlot : Lexicon.nextSlot _ = last at hm ⊢
  have hslot : (Slot.ofLocal index).index = index := Slot.index_ofLocal (hi ▸ hindex)
  let l : Code.Loop := ⟨index, last, items⟩
  rw [bind_apply]
  refine .bind (R := fun r t => q.Interns r ∧ t.2.Ready counts (l :: loops) (L.loop element) r)
    ?_ ?_
  · have hinside := (hsecond.mono (List.subset_cons_self l loops)).later hpq
    refine hinside.element rfl L.frames element ?_
    rw [hslot]
    exact Meaning.sheltered_ofElement hrepeats hrun
      (hguarded.mono (List.subset_cons_self l loops)) List.mem_cons_self
  · rintro r ⟨_, τ⟩ - ⟨hqr, hτ⟩
    dsimp only at hτ ⊢
    have hfresh : l.Fresh counts taken :=
      { small := ⟨hi ▸ hindex, hm ▸ hlast⟩
        index := show counts index.toNat from hi ▸ hindexes
        last := show counts last.toNat from hm ▸ hlasts
        index_free := fun hmem => Nat.lt_irrefl _ (hi ▸ htaken _ hmem)
        last_free := fun hmem => Nat.not_succ_lt_self (hm ▸ htaken _ hmem) }
    exact (Makes.rounds hfresh hguarded (hbody l hi hm) r τ hτ).imp fun u t _ h =>
      ⟨(hpq.trans hqr).trans h.1, h.2.1.slots, h.2.2⟩

mutual

/-- A statement gives code in which its loops over collections are told apart. -/
theorem stmtOver_unfolds (hg : env.globals.Exact) (hthis : env.owner.isSome → ¬ counts 0)
    (hsorts : Declaration.Sorts counts all) : (s : Stmt) →
    (loops : List Code.Loop) → ∀ {k : Nat} {L : Ledger} {taken : List Nat}, s.Names Token.Proper →
    (∀ b ∈ s.binders, b.name.toList.head? ≠ some '$') → (s.ledger k L).made ⊆ all →
    (∀ n ∈ taken, n < L.slots) →
    Makes counts loops L (s.ledger k L) (stmtOver (Lexicon.keeper env) env s)
      (Unfolds counts loops taken s.flow)
  | .block ⟨body, _⟩, loops, _, _, _, hn, hb, hmade, htaken => by
    simp only [stmtOver, Stmt.ledger, Stmt.flow] at hmade ⊢
    exact .frame (stmtsOver_unfolds hg hthis hsorts body loops [] .nil hn hb hmade htaken)
  | .expr e, _, _, _, _, hn, _, _, _ => by
    simp only [stmtOver, Stmt.ledger, Stmt.flow]
    exact (Makes.expr hg hthis hn).bind fun x hx => .pure (.drop hx)
  | .var name init, loops, k, L, taken, hn, hb, hmade, _ => by
    have hdeclare {value : Code} (hvalue : Guarded counts loops 1 value) :
        Makes counts loops L (L.declare k name) (do
          return value ++
            [Instruction.setVariable (.ofLocal (← (Lexicon.keeper env).declare name))])
          (Unfolds counts loops taken [.assign]) :=
      (Makes.declare hsorts hmade (hb _ List.mem_cons_self)).bind fun i hi =>
        .pure (.store hvalue rfl (Instruction.spares_setLocal hi.1 hi.2))
    simp only [stmtOver, Stmt.ledger, Stmt.flow]
    cases init with
    | none =>
      exact (Makes.pure (Q := Guarded counts loops 1)
        (guarded_one rfl rfl (Instruction.spares_of_isNameless rfl))).bind fun _ => hdeclare
    | some e => exact (Makes.expr hg hthis hn).bind fun _ => hdeclare
  | .assign target value, _, _, _, _, hn, _, _, _ => by
    simp only [stmtOver, Stmt.ledger, Stmt.flow]
    exact .assign hg hthis hn.1 hn.2
  | .return_ none _, _, _, _, _, _, _, _, _ => by
    simp only [stmtOver, Stmt.ledger, Stmt.flow]
    exact .pure (.return_ (guarded_one rfl rfl (Instruction.spares_of_isNameless rfl)))
  | .return_ (some e) _, _, _, _, _, hn, _, _, _ => by
    simp only [stmtOver, Stmt.ledger, Stmt.flow]
    exact (Makes.expr hg hthis hn).bind fun x hx => .pure (.return_ hx)
  | .if_ none body none _, loops, _, _, _, hn, hb, hmade, htaken => by
    simp only [stmtOver, Stmt.ledger, Stmt.flow, Stmt.binders, Stmt.Names] at hn hb hmade ⊢
    exact (stmtOver_unfolds hg hthis hsorts body loops hn hb hmade htaken).map
      fun x hx => hx.marked body
  | .if_ none body (some arm) _, loops, _, _, _, hn, hb, hmade, htaken => by
    simp only [stmtOver, Stmt.ledger, Stmt.flow, Stmt.binders, Stmt.Names,
      List.forall_mem_append] at hn hb hmade ⊢
    exact (stmtOver_unfolds hg hthis hsorts body loops hn.1 hb.1 hmade htaken).map fun x hx =>
      hx.marked body
  | .if_ (some c) body none span, loops, _, _, _, hn, hb, hmade, htaken => by
    simp only [stmtOver, Stmt.ledger, Stmt.flow, Stmt.binders, Stmt.Names] at hn hb hmade ⊢
    have hbody := stmtOver_unfolds hg hthis hsorts body loops hn.2 hb hmade htaken
    exact (Makes.expr hg hthis hn.1).bind fun test ht =>
      (hbody.map fun x hx => hx.marked body).bind fun x hx => (Makes.ofExcept _).bind
        fun skip hskip => .pure (.if_ ht hx (Branch.toInt_forward hskip))
  | .if_ (some c) body (some arm) span, loops, k, L, _, hn, hb, hmade, htaken => by
    simp only [stmtOver, Stmt.ledger, Stmt.flow, Stmt.binders, Stmt.Names,
      List.forall_mem_append] at hn hb hmade ⊢
    have hkeeps := Stmt.keeps_ledger body k L
    have hbody := stmtOver_unfolds hg hthis hsorts body loops hn.2.1 hb.1
      (List.Subset.trans (Stmt.keeps_ledger arm k _).made hmade) htaken
    have harm := stmtOver_unfolds hg hthis hsorts arm loops hn.2.2 hb.2 hmade fun n hmem =>
      Nat.lt_of_lt_of_le (htaken n hmem) hkeeps.slots
    refine (Makes.expr hg hthis hn.1).bind fun test ht =>
      (hbody.map fun x hx => hx.marked body).bind fun x hx => (Makes.ofExcept _).bind
        fun skip hskip => (harm.map fun y hy => hy.marked arm).bind fun y hy =>
          (Makes.ofExcept _).bind fun past hpast => .pure (.ifElse ht hx hy ?_ ?_)
    · rw [Branch.toInt_forward hskip]
      simp
    · exact Branch.toInt_forward hpast
  | .while_ c body, loops, _, _, _, hn, hb, hmade, htaken => by
    simp only [stmtOver, Stmt.ledger, Stmt.flow, Stmt.binders, Stmt.Names] at hn hb hmade ⊢
    have hbody := stmtOver_unfolds hg hthis hsorts body loops hn.2 hb hmade htaken
    refine (Makes.expr hg hthis hn.1).bind fun test ht =>
      (hbody.map fun x hx => hx.marked body).bind fun x hx =>
        (Makes.ofExcept _).imp fun code hcode => ?_
    obtain ⟨out, back, rfl, hout, hback⟩ := loopCode_distances hcode
    exact .while_ ht hx hout hback
  | .doWhile body c, loops, _, _, _, hn, hb, hmade, htaken => by
    simp only [stmtOver, Stmt.ledger, Stmt.flow, Stmt.binders, Stmt.Names] at hn hb hmade ⊢
    have hbody := stmtOver_unfolds hg hthis hsorts body loops hn.2 hb hmade htaken
    refine (hbody.map fun x hx => hx.marked body).bind fun x hx =>
      (Makes.expr hg hthis hn.1).bind fun test ht => (Makes.ofExcept _).bind fun back hback =>
        .pure (.doWhile hx ht ?_)
    rw [Branch.toInt_backward hback, Code.size_append]
    rfl
  | .foreach element collection body, loops, _, L, _, hn, hb, hmade, htaken => by
    simp only [Stmt.ledger, Stmt.flow, Stmt.binders, Stmt.Names, List.forall_mem_cons]
      at hn hb hmade ⊢
    have hkeeps := Stmt.keeps_ledger body L.frames (L.loop element)
    refine .foreach hg hthis hsorts hn.1 (List.Subset.trans hkeeps.made hmade) htaken
      fun l hi hm => stmtOver_unfolds hg hthis hsorts body (l :: loops) hn.2 hb.2 hmade ?_
    have hslots : (L.loop element).slots = L.slots + 2 := rfl
    simp only [List.forall_mem_cons, hi, hm, hslots]
    exact ⟨by omega, by omega, fun n hmem => Nat.lt_succ_of_lt (Nat.lt_succ_of_lt (htaken n hmem))⟩
  | .classDecl _, _, _, _, _, _, _, _, _ | .property _, _, _, _, _, _, _, _, _
  | .subroutine _, _, _, _, _, _, _, _, _ | .global _, _, _, _, _, _, _, _, _ => by
    simp only [stmtOver, Stmt.ledger]
    exact .throw

theorem stmtsOver_unfolds (hg : env.globals.Exact) (hthis : env.owner.isSome → ¬ counts 0)
    (hsorts : Declaration.Sorts counts all) : (ss : List Stmt) →
    (loops : List Code.Loop) → (acc : Code) → ∀ {a : List Flow} {k : Nat} {L : Ledger}
    {taken : List Nat},
    Unfolds counts loops taken a acc.reverse → Stmt.AllNames Token.Proper ss →
    (∀ b ∈ Stmt.bindersAll ss, b.name.toList.head? ≠ some '$') →
    (Stmt.ledgerAll k ss L).made ⊆ all → (∀ n ∈ taken, n < L.slots) →
    Makes counts loops L (Stmt.ledgerAll k ss L) (stmtsOver (Lexicon.keeper env) env acc ss)
      (Unfolds counts loops taken (a ++ Stmt.flows ss))
  | [], _, acc, _, _, _, _, hacc, _, _, _, _ => by
    simp only [stmtsOver, Stmt.ledgerAll, Stmt.flows, List.append_nil]
    exact .pure hacc
  | s :: ss, loops, acc, _, k, L, _, hacc, hn, hb, hmade, htaken => by
    simp only [Stmt.ledgerAll, Stmt.flows, Stmt.bindersAll, Stmt.AllNames,
      List.forall_mem_append, stmtsOver] at hn hb hmade ⊢
    have hs := stmtOver_unfolds hg hthis hsorts s loops hn.1 hb.1
      (List.Subset.trans (Stmt.keeps_ledgerAll ss k _).made hmade) htaken
    rw [← List.append_assoc]
    exact (hs.map fun x hx => hx.marked s).bind fun x hx =>
      stmtsOver_unfolds hg hthis hsorts ss loops _ (hacc.reverse_append hx) hn.2 hb.2 hmade
        fun n hmem =>
        Nat.lt_of_lt_of_le (htaken n hmem) (Stmt.keeps_ledger s k L).slots

end

/-! Bodies. -/

theorem seed_makes (env : Env) (isMethod : Bool) :
    Makes counts [] {} (if isMethod then Ledger.hide {} 0 "this" else {})
      ((Lexicon.keeper env).seed isMethod) fun _ => True := by
  cases isMethod with
  | false => exact .pure trivial
  | true =>
    have hhide : Makes counts [] {} (Ledger.hide {} 0 "this")
        ((Lexicon.keeper env).hidden "this") fun _ => True :=
      fun _ _ hρ => .pure ⟨.refl, hρ.hide (Nat.zero_lt_succ _) 0 "this", trivial⟩
    exact hhide.map fun _ _ => trivial

theorem declareAll_makes (hsorts : Declaration.Sorts counts all) : (ps : List Token) →
    ∀ {L : Ledger}, (∀ t ∈ ps, t.text.toList.head? ≠ some '$') →
    (ps.foldl (·.declare 0 ·) L).made ⊆ all →
    Makes counts [] L (ps.foldl (·.declare 0 ·) L) ((Lexicon.keeper env).declareAll ps)
      fun _ => True
  | [], _, _, _ => .pure trivial
  | p :: ps, L, hps, hmade => by
    obtain ⟨hp, hps⟩ := List.forall_mem_cons.mp hps
    have hfirst := List.Subset.trans (Ledger.keeps_declareAll ps (L.declare 0 p)).made hmade
    exact (Makes.declare hsorts hfirst hp).bind fun _ _ => declareAll_makes hsorts ps hps hmade

theorem start_makes (hsorts : Declaration.Sorts counts all) {ps : List Token} {isMethod : Bool}
    (hps : ∀ t ∈ ps, t.text.toList.head? ≠ some '$')
    (hmade : (Ledger.start ps isMethod).made ⊆ all) :
    Makes counts [] {} (.start ps isMethod) ((Lexicon.keeper env).start ps isMethod)
      fun _ => True := by
  cases ps with
  | nil => exact seed_makes env isMethod
  | cons p ps =>
    simp only [Keeper.start]
    split
    · exact .throw
    · exact (seed_makes env isMethod).bind fun _ _ => declareAll_makes hsorts (p :: ps) hps hmade

end Naming

end

section

open Naming Code

variable {env : Env} {s : Subroutine} {p q : Pool} {code : Code}

/-- A finished body: a prologue, then code that unfolds the control flow of the source. -/
def SubroutineOf.Unfolded (s : Subroutine) (isMethod : Bool) (code : Code) : Prop :=
  ∃ prologue body, code = prologue ++ body ∧ (∀ i ∈ prologue, i.isPrologue) ∧
    Unfolds (s.LoopSlot isMethod) [] [] (Stmt.flows s.completed) body

theorem subroutineOver_unfolds (hg : env.globals.Exact)
    (hsorts : Declaration.Sorts (s.LoopSlot env.owner.isSome) (s.declarations env.owner.isSome))
    (hn : Stmt.AllNames Token.Proper s.body.statements)
    (hb : ∀ b ∈ s.binders, b.name.toList.head? ≠ some '$') :
    Makes (s.LoopSlot env.owner.isSome) [] {}
      (Stmt.ledgerAll 0 s.body.statements (.start s.parameters env.owner.isSome))
      (subroutineOver (Lexicon.keeper env) env s) (s.Unfolded env.owner.isSome) := by
  obtain ⟨hps, hb⟩ := List.forall_mem_append.mp hb
  have hps : ∀ t ∈ s.parameters, t.text.toList.head? ≠ some '$' := fun t ht =>
    hps _ (List.mem_map_of_mem ht)
  -- the object itself has slot 0 in a method
  have hthis : env.owner.isSome → ¬ s.LoopSlot env.owner.isSome 0 := by
    intro howner hloop
    have hle := hloop.start_le hsorts hps
    rw [howner] at hle
    exact absurd (Nat.le_trans (Nat.le_add_right 1 _) hle) (Nat.not_succ_le_zero 0)
  have hkeeps := Stmt.keeps_ledgerAll s.body.statements 0 (.start s.parameters env.owner.isSome)
  have hnil : Unfolds (s.LoopSlot env.owner.isSome) [] [] [] [].reverse := .nil
  have hbody := stmtsOver_unfolds (k := 0) hg hthis hsorts s.body.statements [] [] hnil hn hb
    (List.Subset.refl _) nofun
  have hslots (L : Ledger) : Makes (s.LoopSlot env.owner.isSome) [] L L
      (Lexicon.keeper env).slots fun _ => True :=
    fun _ _ hρ => .pure ⟨.refl, hρ, trivial⟩
  refine (start_makes hsorts hps hkeeps.made).bind fun _ _ => hbody.bind fun body hbody =>
    (hslots _).bind fun n _ => (Makes.ofExcept _).imp fun code hfinish => ?_
  unfold Draft.finish at hfinish
  split at hfinish
  · cases hfinish
  cases hfinish
  refine ⟨_, _, List.append_assoc _ _ _, fun i hi => Draft.isPrologue_of_mem_prologue hi, ?_⟩
  rw [SubroutineOf.completed, Stmt.flows_append]
  refine hbody.append ?_
  split
  · exact .nil
  · exact .return_ (guarded_one rfl rfl (Instruction.spares_of_isNameless rfl))

theorem lowerSubroutine_unfolds (hg : env.globals.Exact) (hp : p.Exact)
    (hn : Stmt.AllNames Token.Proper s.body.statements)
    (hb : ∀ b ∈ s.binders, b.name.toList.head? ≠ some '$')
    (h : (lowerSubroutine env s).run.run p = (.ok code, q)) :
    s.Unfolded env.owner.isSome code := by
  have hready : Lexicon.Ready (s.LoopSlot env.owner.isSome) [] {} p {} :=
    ⟨rfl, fun _ _ _ => nofun⟩
  have hmakes := subroutineOver_unfolds hg (declarations_sorts h) hn hb p {} hready hp
  rw [← lexicalSubroutine_eq, lexicalSubroutine, map_eq_pure_bind] at h
  obtain ⟨r, u, hr, hcode⟩ := run_bind_eq_ok.mp h
  cases hcode
  exact (hmakes r q hr).2.2.2.2

end

end Lss
