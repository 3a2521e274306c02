import Lss.Proofs.LoopCode
import Lss.Proofs.LoopSlots

/-!
# Names beside loops

Names that a text can spell are read without the counters and the bounds of loops, but for elements
of the loops around them. An element is read with the code that its collection has in the head,
since lowering the collection again gives the same. So the code of an expression spares the counters
wherever it stands.
-/
namespace Lss

open Lower

/-! What names that can be spelled stand for. -/

section

variable {env : Env} {read : Token → Lower Code} {assigned : Token → Lower Slot}

theorem assignOver_congr {read' : Token → Lower Code} {assigned' : Token → Lower Slot}
    {target value : Expr}
    (ht : target.Names fun t => t.kind = .identifier → read t = read' t ∧ assigned t = assigned' t)
    (hv : value.Names fun t => t.kind = .identifier → read t = read' t) :
    assignOver env read assigned target value = assignOver env read' assigned' target value := by
  have hread {e : Expr} (he : e.Names fun t =>
      t.kind = .identifier → read t = read' t ∧ assigned t = assigned' t) :
      lowerExpr env read e = lowerExpr env read' e :=
    lowerExpr_congr e (he.imp fun _ h hk => (h hk).1)
  simp only [assignOver, exprOver_lower, lowerExpr_congr value hv]
  split
  · split
    · rfl
    · next hk => rw [(ht (Decidable.not_not.mp hk)).2]
  · simp only [Expr.Names] at ht
    rw [hread ht.1, hread ht.2]
  · simp only [Expr.Names] at ht
    rw [hread ht.1, hread ht.2]
  · rfl

end

/-- What a name means from a pool on, if it has no counter and no bound of a loop, but for those
that elements of the loops under way are read with. -/
structure Meaning.Sheltered (counts : Nat → Prop) (loops : List Code.Loop) (p : Pool)
    (m : Meaning) : Prop where
  repeats : Repeats m.read
  reads : ∀ q, p.Interns q → Meets q m.read fun _ => Code.Guarded counts loops 1
  assigned : ∀ i, m.slot? = some i → i.toNat < 0x8000 ∧ ¬ counts i.toNat

def Meanings.Shelters (counts : Nat → Prop) (loops : List Code.Loop) (p : Pool) (ρ : Meanings) :
    Prop :=
  ∀ (name : String) (m : Meaning), name.toList.head? ≠ some '$' → ρ.find? name = some m →
    m.Sheltered counts loops p

def Lower.whenSpelled {α : Type} (f : Token → Lower α) (t : Token) : Lower α :=
  if t.text.toList.head? = some '$' then throw (.undefinedVariable t.text t.span) else f t

theorem Lower.whenSpelled_eq {α : Type} (f : Token → Lower α) {t : Token} (ht : t.Proper)
    (hk : t.kind = .identifier) : whenSpelled f t = f t :=
  if_neg ((ht hk).head_ne_dollar rfl)

section

variable {env : Env} {counts : Nat → Prop} {loops loops' : List Code.Loop} {p q : Pool}
  {m : Meaning} {i : UInt16} {n : Nat} {taken : List Nat}

theorem Instruction.spares_getLocal (h : i.toNat < 0x8000) (hi : ¬ counts i.toNat) :
    (Instruction.getVariable (.ofLocal i)).Spares counts := by
  rintro s (heq | heq) _ <;> cases heq
  rwa [Slot.index_ofLocal h]

theorem Instruction.spares_setLocal (h : i.toNat < 0x8000) (hi : ¬ counts i.toNat) :
    (Instruction.setVariable (.ofLocal i)).Spares counts := by
  rintro s (heq | heq) _ <;> cases heq
  rwa [Slot.index_ofLocal h]

theorem Slot.spares_ofGlobal (i : UInt16) {s : Slot} (heq : Slot.ofGlobal i = s)
    (hlocal : s.isGlobal = false) : ¬ counts s.index.toNat := by
  subst heq
  rw [Slot.isGlobal_ofGlobal] at hlocal
  cases hlocal

theorem Instruction.spares_of_isNameless {i : Instruction} (h : i.isNameless) :
    i.Spares counts := by
  rintro s (rfl | rfl) <;> cases h

theorem Code.guarded_one {i : Instruction} (hi : i.isOperator) (ht : i.takes = 0)
    (hs : i.Spares counts) : Code.Guarded counts loops 1 [i] := by
  have h : Code.Guarded counts loops (0 + i.takes) [] := by
    rw [ht]
    exact .nil
  exact h.apply hi hs

/-- Code that spares the counters of loops is made by every step of lowering an expression. -/
theorem straight_guarded (hthis : env.owner.isSome → ¬ counts 0) :
    Straight env n fun _ k x => Code.Guarded counts loops k x where
  later h _ := h
  nil := .nil
  append := .append
  apply {q k x i} h hi ht _ := by
    subst ht
    rw [← Nat.zero_add i.takes] at h
    exact h.apply (Instruction.isOperator_of_isNameless hi) (Instruction.spares_of_isNameless hi)
  this howner := Code.guarded_one rfl rfl (Instruction.spares_getLocal (by decide) (hthis howner))
  dup h := h.dup
  construct hargs _ := Code.Guarded.nil.construct hargs

namespace Meaning

theorem Sheltered.later (h : m.Sheltered counts loops p) (hpq : p.Interns q) :
    m.Sheltered counts loops q :=
  ⟨h.repeats, fun r hr => h.reads r (hpq.trans hr), h.assigned⟩

theorem Sheltered.mono (h : m.Sheltered counts loops p) (hsub : loops ⊆ loops') :
    m.Sheltered counts loops' p :=
  ⟨h.repeats, fun r hr => (h.reads r hr).imp fun _ _ _ hx => hx.mono hsub, h.assigned⟩

theorem sheltered_ofSlot (h : i.toNat < 0x8000) (hi : ¬ counts i.toNat) :
    (ofSlot i).Sheltered counts loops p := by
  refine ⟨.pure _, fun q _ => .pure (Code.guarded_one rfl rfl (Instruction.spares_getLocal h hi)),
    fun j hj => ?_⟩
  cases hj
  exact ⟨h, hi⟩

/-- Lowered again, the collection has the code of the head. -/
theorem sheltered_ofElement {read : Token → Lower Code} {collection : Expr} {l : Code.Loop}
    (hrepeats : Repeats (lowerExpr env read collection))
    (hrun : (lowerExpr env read collection).run.run p = (.ok l.items, q))
    (hitems : Code.Guarded counts loops 1 l.items) (hl : l ∈ loops) :
    (ofElement env read collection l.index).Sheltered counts loops q := by
  refine ⟨hrepeats.bind fun _ => .pure _, fun r hr hexact code u hcode => ?_, nofun⟩
  obtain ⟨r', hagain, hsame⟩ := hrepeats.again p l.items q hrun r hr
  obtain ⟨items, v, hv, hcode⟩ := run_bind_eq_ok.mp hcode
  obtain ⟨rfl, rfl⟩ : items = l.items ∧ v = r' := by
    rw [hv] at hagain
    exact ⟨Except.ok.inj (congrArg Prod.fst hagain), congrArg Prod.snd hagain⟩
  cases hcode
  refine ⟨⟨hsame.strings ▸ hexact.strings, hsame.symbols ▸ hexact.symbols⟩,
    ⟨hsame.strings ▸ .refl _, hsame.symbols ▸ .refl _⟩, ?_⟩
  exact Code.Guarded.nil.element hl hitems

end Meaning

namespace Meanings

variable {ρ : Meanings} {name other : String}

theorem find?_insert_of_ne (h : name ≠ other) (m : Meaning) :
    (ρ.insert other m).find? name = ρ.find? name := by
  cases ρ with
  | nil => rfl
  | cons top rest =>
    have hne : (name == other) = false := beq_eq_false_iff_ne.mpr h
    have hlookup : ((other, m) :: top).lookup name = top.lookup name := by
      rw [List.lookup_cons, hne]
    simp only [insert, find?, List.modifyHead_cons, List.findSome?_cons, hlookup]

theorem eq_of_find?_insert {m' : Meaning} (h : (ρ.insert name m).find? name = some m') :
    m' = m := by
  cases ρ with
  | nil => cases h
  | cons top rest =>
    simp only [insert, find?, List.modifyHead_cons, List.findSome?_cons, List.lookup_cons_self,
      Option.some.injEq] at h
    exact h.symm

theorem Shelters.later (h : ρ.Shelters counts loops p) (hpq : p.Interns q) :
    ρ.Shelters counts loops q :=
  fun name m hname hm => (h name m hname hm).later hpq

theorem Shelters.mono (h : ρ.Shelters counts loops p) (hsub : loops ⊆ loops') :
    ρ.Shelters counts loops' p :=
  fun name m hname hm => (h name m hname hm).mono hsub

theorem Shelters.enter (h : ρ.Shelters counts loops p) : Shelters counts loops p ([] :: ρ) := h

theorem Shelters.insert (h : ρ.Shelters counts loops p)
    (hm : name.toList.head? ≠ some '$' → m.Sheltered counts loops p) :
    (ρ.insert name m).Shelters counts loops p := by
  intro x m' hx hm'
  by_cases heq : x = name
  · subst heq
    rw [eq_of_find?_insert hm']
    exact hm hx
  · rw [find?_insert_of_ne heq] at hm'
    exact h x m' hx hm'

/-! Reading and assigning. -/

theorem Shelters.repeats (hρ : ρ.Shelters counts loops p) (t : Token) :
    Repeats (whenSpelled (ρ.read env) t) := by
  unfold whenSpelled
  split
  · exact .throw _
  · next hname =>
    unfold read
    split
    · next m hm => exact (hρ t.text m hname hm).repeats
    · exact (readGlobal_composed composes_repeats t).bind fun _ => .pure _

theorem Shelters.reads (hρ : ρ.Shelters counts loops p) (hg : env.globals.Exact) (t : Token)
    (hpq : p.Interns q) :
    Meets q (whenSpelled (ρ.read env) t) fun _ => Code.Guarded counts loops 1 := by
  unfold whenSpelled
  split
  · exact .throw
  · next hname =>
    unfold read
    split
    · next m hm => exact (hρ t.text m hname hm).reads q hpq
    · refine .bind (readGlobal_meets hg t q) ?_
      rintro r _ - ⟨i, rfl, -⟩
      refine .pure (Code.guarded_one rfl rfl ?_)
      rintro s (heq | heq) <;> cases heq
      exact Slot.spares_ofGlobal i rfl

theorem Shelters.assigns (hρ : ρ.Shelters counts loops p) (hg : env.globals.Exact) (t : Token)
    (q : Pool) : Meets q (whenSpelled (ρ.assigned env) t) fun q s =>
      s.Fits (q.limits env 0x8000) ∧ (s.isGlobal = false → ¬ counts s.index.toNat) := by
  unfold whenSpelled
  split
  · exact .throw
  · next hname =>
    unfold assigned
    split
    · next i _ hm =>
      obtain ⟨hlt, hi⟩ := (hρ t.text _ hname hm).assigned i rfl
      refine .pure ⟨Or.inl ⟨i, rfl, hlt⟩, fun _ => ?_⟩
      rwa [Slot.index_ofLocal hlt]
    · exact .throw
    · refine (readGlobal_meets hg t q).imp ?_
      rintro r _ - ⟨i, rfl, hi⟩
      exact ⟨Or.inr ⟨i, rfl, hi⟩, Slot.spares_ofGlobal i rfl⟩

theorem assigned_interning (ρ : Meanings) (t : Token) :
    Interning (whenSpelled (ρ.assigned env) t) := by
  unfold whenSpelled
  split
  · exact .throw _
  · unfold assigned
    split
    · exact .pure _
    · exact .throw _
    · exact readGlobal_composed composes_interning t

section

variable (hg : env.globals.Exact) (hthis : env.owner.isSome → ¬ counts 0)
include hg hthis

/-- An expression that a text can spell has code that spares the counters of loops, and can be
lowered again. -/
theorem Shelters.lowerExpr (hρ : ρ.Shelters counts loops p) {e : Expr}
    (he : e.Names Token.Proper) :
    Repeats (lowerExpr env (ρ.read env) e) ∧
      Meets p (lowerExpr env (ρ.read env) e) fun q x =>
        p.Interns q ∧ Code.Guarded counts loops 1 x := by
  have hread (t : Token) : Repeats (whenSpelled (ρ.read env) t) := hρ.repeats t
  rw [lowerExpr_congr e (he.imp fun t ht hk => (whenSpelled_eq (ρ.read env) ht hk).symm)]
  have hI (q r : Pool) : p.Interns q → q.Interns r → p.Interns r := Pool.Interns.trans
  have hstraight : Straight env 0 fun _ => Code.Guarded counts loops := straight_guarded hthis
  have hnames (t : Token) (q : Pool) (hq : p.Interns q) :
      Meets q (whenSpelled (ρ.read env) t) fun r x => p.Interns r ∧ Code.Guarded counts loops 1 x :=
    meets_interning hI (hread t).interning (hρ.reads hg t hq) hq
  exact ⟨lowerExpr_composed composes_repeats hread e,
    lowerExpr_meeting hI hstraight hnames e .refl⟩

theorem Shelters.assign (hρ : ρ.Shelters counts loops p) {target value : Expr}
    (ht : target.Names Token.Proper) (hv : value.Names Token.Proper) :
    Meets p (assignOver env (ρ.read env) (ρ.assigned env) target value) fun q x =>
      p.Interns q ∧ Code.Unfolds counts loops taken [.assign] x := by
  have hread (t : Token) : Repeats (whenSpelled (ρ.read env) t) := hρ.repeats t
  rw [assignOver_congr
    (ht.imp fun t ht hk => ⟨(whenSpelled_eq (ρ.read env) ht hk).symm,
      (whenSpelled_eq (ρ.assigned env) ht hk).symm⟩)
    (hv.imp fun t ht hk => (whenSpelled_eq (ρ.read env) ht hk).symm)]
  have hI (q r : Pool) : p.Interns q → q.Interns r → p.Interns r := Pool.Interns.trans
  have hstraight : Straight env 0x8000 fun _ => Code.Guarded counts loops := straight_guarded hthis
  have hnames (t : Token) (q : Pool) (hq : p.Interns q) :
      Meets q (whenSpelled (ρ.read env) t) fun r x => p.Interns r ∧ Code.Guarded counts loops 1 x :=
    meets_interning hI (hread t).interning (hρ.reads hg t hq) hq
  have hslots (t : Token) (q : Pool) : p.Interns q →
      Meets q (whenSpelled (ρ.assigned env) t) fun r s => p.Interns r ∧
        s.Fits (r.limits env 0x8000) ∧ (s.isGlobal = false → ¬ counts s.index.toNat) :=
    meets_interning hI (assigned_interning ρ t) (hρ.assigns hg t q)
  refine (assignOver_meeting hI hstraight hnames hslots target value .refl).imp ?_
  rintro q _ - ⟨hpq, x, i, rfl, hx, hi, -, hset⟩
  refine ⟨hpq, .store hx hi fun s hs hlocal => ?_⟩
  rcases hs with rfl | rfl
  · cases hi
  · exact hset s rfl hlocal

end

end Meanings

/-! Computations with an environment. -/

structure Lexicon.Ready (counts : Nat → Prop) (loops : List Code.Loop) (L : Ledger) (p : Pool)
    (ρ : Lexicon) : Prop where
  slots : ρ.slots = L.slots
  shelters : ρ.names.Shelters counts loops p

/-- A computation with such environments that makes the declarations from one ledger to another,
and gives what `Q` says. -/
def Naming.Makes (counts : Nat → Prop) (loops : List Code.Loop) (L M : Ledger) {α : Type}
    (x : Naming α) (Q : α → Prop) : Prop :=
  ∀ p ρ, ρ.Ready counts loops L p →
    Meets p (x ρ) fun q r => p.Interns q ∧ r.2.Ready counts loops M q ∧ Q r.1

namespace Lexicon

variable {ρ : Lexicon} {L : Ledger} {all : List Declaration}

theorem Ready.later (h : ρ.Ready counts loops L p) (hpq : p.Interns q) :
    ρ.Ready counts loops L q :=
  ⟨h.slots, h.shelters.later hpq⟩

theorem Ready.mono (h : ρ.Ready counts loops L p) (hsub : loops ⊆ loops') :
    ρ.Ready counts loops' L p :=
  ⟨h.slots, h.shelters.mono hsub⟩

theorem Ready.enter (h : ρ.Ready counts loops L p) :
    ({ ρ with names := [] :: ρ.names } : Lexicon).Ready counts loops L.enter p :=
  ⟨h.slots, h.shelters.enter⟩

theorem Ready.toNat_nextSlot (h : ρ.Ready counts loops L p) (hslots : L.slots < 0x8000) :
    ρ.nextSlot.toNat = L.slots := by
  rw [nextSlot, h.slots, UInt16.toNat_ofNat_of_lt' (by simp only [UInt16.size]; omega)]
  omega

theorem Ready.withSlot (h : ρ.Ready counts loops L p) (hslots : L.slots < 0x8000)
    {name : String} (hname : name.toList.head? ≠ some '$' → ¬ counts L.slots) :
    (ρ.withSlot name).names.Shelters counts loops p := by
  have hnext := h.toNat_nextSlot hslots
  exact h.shelters.insert fun hhead =>
    Meaning.sheltered_ofSlot (hnext ▸ hslots) (hnext ▸ hname hhead)

def hide (ρ : Lexicon) (purpose : String) : Lexicon :=
  { ρ.withSlot ("$" ++ purpose ++ toString (ρ.hidden + 1)) with hidden := ρ.hidden + 1 }

theorem hidden_apply (env : Env) (purpose : String) (ρ : Lexicon) :
    (keeper env).hidden purpose ρ = pure (ρ.nextSlot, ρ.hide purpose) := rfl

theorem Ready.hide (h : ρ.Ready counts loops L p) (hslots : L.slots < 0x8000) (k : Nat)
    (purpose : String) : (ρ.hide purpose).Ready counts loops (L.hide k purpose) p :=
  ⟨congrArg (· + 1) h.slots, h.withSlot hslots fun hhead => absurd (by simp) hhead⟩

/-- Hidden names are not in the way of others. -/
theorem read_hide (ρ : Lexicon) (purpose : String) {t : Token}
    (ht : t.text.toList.head? ≠ some '$') :
    (ρ.hide purpose).names.read env t = ρ.names.read env t := by
  have hne : t.text ≠ "$" ++ purpose ++ toString (ρ.hidden + 1) := by
    intro heq
    exact ht (by simp [heq])
  unfold Meanings.read
  rw [hide, withSlot, Meanings.find?_insert_of_ne hne]

/-- A name that stands for elements from now on. -/
theorem Ready.element (h : ρ.Ready counts loops L p) {outer : Meanings}
    (htail : ρ.names.tail = outer) (k : Nat) (t : Token) {collection : Expr}
    (hm : (Meaning.ofElement env (outer.read env) collection i).Sheltered counts loops p) :
    Meets p ((keeper env).element t collection i ρ) fun q r =>
      p.Interns q ∧ r.2.Ready counts loops (L.element k t) q := by
  dsimp only [keeper]
  rw [htail]
  split
  · exact .throw
  · split
    · exact .throw
    · exact .pure ⟨.refl, h.slots, h.shelters.insert fun _ => hm⟩

end Lexicon

namespace Naming

variable {L M N : Ledger} {α β : Type} {x : Naming α} {y : α → Naming β} {Q R : α → Prop}
  {T : β → Prop} {all : List Declaration}

theorem bind_apply (x : Naming α) (y : α → Naming β) (ρ : Lexicon) :
    (x >>= y) ρ = x ρ >>= fun r => y r.1 r.2 := rfl

theorem Makes.pure {a : α} (h : Q a) : Makes counts loops L L (pure a) Q :=
  fun _ _ hρ => .pure ⟨.refl, hρ, h⟩

theorem Makes.bind (hx : Makes counts loops L M x R)
    (hy : ∀ a, R a → Makes counts loops M N (y a) T) :
    Makes counts loops L N (x >>= y) T := by
  intro p ρ hρ
  rw [bind_apply]
  refine .bind (hx p ρ hρ) fun q r _ hr => ?_
  obtain ⟨hpq, hready, hR⟩ := hr
  exact (hy r.1 hR q r.2 hready).imp fun u s _ hs => ⟨hpq.trans hs.1, hs.2⟩

theorem Makes.imp (hx : Makes counts loops L M x R) (h : ∀ a, R a → Q a) :
    Makes counts loops L M x Q :=
  fun p ρ hρ => (hx p ρ hρ).imp fun _ r _ hr => ⟨hr.1, hr.2.1, h r.1 hr.2.2⟩

theorem Makes.map {f : α → β} (hx : Makes counts loops L M x R) (h : ∀ a, R a → T (f a)) :
    Makes counts loops L M (f <$> x) T := by
  rw [map_eq_pure_bind]
  exact hx.bind fun a ha => .pure (h a ha)

theorem Makes.ofExcept (r : Except CompileError α) :
    Makes counts loops L L (liftM (Lower.ofExcept r)) fun a => r = .ok a := by
  intro p ρ hρ
  cases r with
  | ok a => exact .pure ⟨.refl, hρ, rfl⟩
  | error e => exact .throw

theorem Makes.throw {e : CompileError} :
    Makes counts loops L M (MonadExcept.throw e : Naming α) Q :=
  fun _ _ _ => .throw

theorem read_names (ρ : Lexicon) (t : Token) :
    Reads ρ ((Lexicon.keeper env).read t) (ρ.names.read env t) := rfl

theorem assigned_names (ρ : Lexicon) (t : Token) :
    Reads ρ ((Lexicon.keeper env).assigned t) (ρ.names.assigned env t) := rfl

theorem exprOver_reads (e : Expr) (ρ : Lexicon) :
    Reads ρ (exprOver env (Lexicon.keeper env).read e) (lowerExpr env (ρ.names.read env) e) := by
  rw [← exprOver_lower]
  exact exprOver_mirrors (reads_mirrors ρ) (read_names ρ) e

/-- What only reads the environment comes from lowering. -/
theorem Makes.reads {f : Lexicon → Lower α} (h : ∀ ρ, Reads ρ x (f ρ))
    (hf : ∀ p ρ, ρ.Ready counts loops L p → Meets p (f ρ) fun q a => p.Interns q ∧ Q a) :
    Makes counts loops L L x Q := by
  intro p ρ hρ
  rw [h ρ]
  exact .map ((hf p ρ hρ).imp fun q a _ ha => ⟨ha.1, hρ.later ha.1, ha.2⟩)

theorem Makes.frame (hx : Makes counts loops L.enter M x Q) :
    Makes counts loops L M ((Lexicon.keeper env).frame x) Q := by
  intro p ρ hρ
  refine .bind (hx p _ hρ.enter) fun q r _ hr => ?_
  exact .pure ⟨hr.1, ⟨hr.2.1.slots, hρ.shelters.later hr.1⟩, hr.2.2⟩

theorem Makes.declare (hsorts : Declaration.Sorts counts all) {k : Nat} {t : Token}
    (hmade : (L.declare k t).made ⊆ all) (ht : t.text.toList.head? ≠ some '$') :
    Makes counts loops L (L.declare k t) ((Lexicon.keeper env).declare t) fun i =>
      i.toNat < 0x8000 ∧ ¬ counts i.toNat := by
  have hmem : ⟨k, t.text, some L.slots, t.span⟩ ∈ all :=
    hmade (List.mem_append_right _ List.mem_cons_self)
  obtain ⟨hslots, hcounts⟩ := hsorts _ hmem L.slots rfl
  have hplain : ¬ counts L.slots := fun h => ht (hcounts.mp h).head
  intro p ρ hρ
  dsimp only [Lexicon.keeper]
  split
  · exact .throw
  · refine .pure ⟨.refl, ⟨congrArg (· + 1) hρ.slots, hρ.withSlot hslots fun _ => hplain⟩, ?_⟩
    rw [hρ.toNat_nextSlot hslots]
    exact ⟨hslots, hplain⟩

section

variable (hg : env.globals.Exact) (hthis : env.owner.isSome → ¬ counts 0)
include hg hthis

theorem Makes.expr {e : Expr} (he : e.Names Token.Proper) :
    Makes counts loops L L (exprOver env (Lexicon.keeper env).read e)
      (Code.Guarded counts loops 1) := by
  refine .reads (exprOver_reads e) fun p ρ hρ => (hρ.shelters.lowerExpr hg hthis he).2

theorem Makes.assign {target value : Expr} (ht : target.Names Token.Proper)
    (hv : value.Names Token.Proper) :
    Makes counts loops L L
      (assignOver env (Lexicon.keeper env).read (Lexicon.keeper env).assigned target value)
      (Code.Unfolds counts loops taken [.assign]) :=
  .reads (fun ρ => assignOver_mirrors (reads_mirrors ρ) (read_names ρ) (assigned_names ρ) target
    value) fun _ _ hρ => hρ.shelters.assign hg hthis ht hv

end

end Naming

end

end Lss
