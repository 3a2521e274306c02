import Lss.Proofs.Compared
import Lss.Proofs.Interned

/-!
# Code of expressions

Every expression that compiles gives straight code that leaves one value. How names are read is a
parameter of lowering, and so is the contract of reading here. Every name of a subroutine stands
for a slot below the number of slots handed out so far, and that number only grows; so code that
reads names fits any later count.
-/
namespace Lss

open Lower

/-- Straight code for `k` values whose operands fit what is known, with `n` locals. -/
def Values (env : Env) (n : Nat) (q : Pool) (k : Nat) (code : Code) : Prop :=
  Pushes (Instruction.Fits (q.limits env n)) k code

structure Env.Sound (env : Env) (n : Nat) : Prop where
  globals : env.globals.Exact
  this : env.owner.isSome → 0 < n

section

variable {env : Env} {n : Nat} {p q : Pool}

theorem Values.grow {m k : Nat} {code : Code} (h : Values env n p k code) (hpq : p.Extends q)
    (hn : n ≤ m) : Values env m q k code :=
  Pushes.imp (Instruction.Fits.mono (hpq.below env hn)) h

theorem Values.later {k : Nat} {code : Code} (h : Values env n p k code) (hpq : p.Extends q) :
    Values env n q k code :=
  h.grow hpq (Nat.le_refl n)

theorem Values.append {k m : Nat} {a b : Code} (ha : Values env n q k a)
    (hb : Values env n q m b) : Values env n q (k + m) (a ++ b) :=
  Pushes.append ha hb

theorem Values.one {i : Instruction} (h : i.isOperator) (ht : i.takes = 0)
    (hf : i.Fits (q.limits env n)) : Values env n q 1 [i] :=
  Pushes.one h ht hf

theorem Values.apply {k : Nat} {code : Code} {i : Instruction} (h : Values env n q k code)
    (hi : i.isOperator) (ht : i.takes = k) (hf : i.Fits (q.limits env n)) :
    Values env n q 1 (code ++ [i]) := by
  subst ht
  have h : Pushes (Instruction.Fits (q.limits env n)) (0 + i.takes) code := by
    rw [Nat.zero_add]
    exact h
  exact h.apply hi hf

/-- A kind of straight code for so many values that every step of lowering an expression keeps,
where `n` locals are known. -/
structure Straight (env : Env) (n : Nat) (V : Pool → Nat → Code → Prop) : Prop where
  later {p q : Pool} {k : Nat} {x : Code} : V p k x → p.Extends q → V q k x
  nil {q : Pool} : V q 0 []
  append {q : Pool} {k m : Nat} {x y : Code} : V q k x → V q m y → V q (k + m) (x ++ y)
  apply {q : Pool} {k : Nat} {x : Code} {i : Instruction} : V q k x → i.isNameless → i.takes = k →
    i.Fits (q.limits env n) → V q 1 (x ++ [i])
  this {q : Pool} : env.owner.isSome → V q 1 [.getVariable (.ofLocal 0)]
  dup {q : Pool} {x : Code} : V q 1 x → V q 2 (x ++ [Instruction.dup])
  construct {q : Pool} {type : SymbolId} {args : Code} {argc : UInt8} : V q argc.toNat args →
    type.index.toNat < q.symbols.size → V q 1 ([.createObject type, .dup] ++ args
      ++ [Instruction.lookupMethod type, .callIndirect argc, .pop])

theorem straight_values (henv : env.Sound n) : Straight env n (Values env n) where
  later h := h.later
  nil := Pushes.nil
  append := .append
  apply h hi := h.apply (Instruction.isOperator_of_isNameless hi)
  this howner := .one rfl rfl (Or.inl ⟨0, rfl, henv.this howner⟩)
  dup h := Pushes.dup h
  construct hargs hs := Pushes.nil.construct hargs hs hs

end

/-! Successful runs, compared with themselves. -/

/-- What limits allow a reference to be. -/
def Reference.Fits (L : Limits) : Reference → Prop
  | .symbol s => s.index.toNat < L.symbols
  | .string s => s.index.toNat < L.strings

/-- What an instruction refers to is all that limits say of it, but for variables and calls. -/
theorem Instruction.fits_of_references {L : Limits} {i : Instruction}
    (h : ∀ r ∈ i.references, r.Fits L) (hslot : ∀ s, i = .getVariable s ∨ i = .setVariable s →
      s.Fits L) (hcalled : ∀ f argc, i = .unresolvedCall f argc → L.functions f = some argc)
    (hlinked : ∀ f argc, i ≠ .callFunction f argc) : i.Fits L := by
  cases i with
  | getVariable s => exact hslot s (.inl rfl)
  | setVariable s => exact hslot s (.inr rfl)
  | unresolvedCall f argc => exact hcalled f argc rfl
  | callFunction f argc => exact absurd rfl (hlinked f argc)
  | getGameVariable | setGameVariable | callGameFunction =>
    exact ⟨h _ List.mem_cons_self, h _ (List.mem_cons_of_mem _ List.mem_cons_self)⟩
  | pushString | getMember | setMember | getThisMember | setThisMember | createObject
  | lookupMethod | getDynamicGameVariable | callDynamicGameFunction | callMethod
  | callThisMethod => exact h _ List.mem_cons_self
  | _ => trivial

namespace Lower

variable {I : Pool → Prop}

theorem meets_interning (hI : ∀ p q, I p → p.Interns q → I q) {α : Type} {f : Lower α}
    {Q : Pool → α → Prop} {p : Pool} (hf : Interning f) (h : Meets p f Q) (hp : I p) :
    Meets p f fun q a => I q ∧ Q q a :=
  h.runs.imp fun q _ _ hrun => ⟨hI p q hp (hf.of_run hrun.1), hrun.2⟩

/-- From pools that are as `I` says, which interning keeps. The second run is of no consequence. -/
def Comparison.meeting (hI : ∀ p q, I p → p.Interns q → I q) : Comparison where
  World := Pool
  Later := Pool.Extends
  Rel p f _ R := I p → Meets p f fun q a => I q ∧ ∃ b, R q a b
  Calm _ := True
  Lenient := True
  Name _ := True
  Symbol q s _ := s.index.toNat < q.symbols.size
  Text q s _ := s.index.toNat < q.strings.size
  composes := composes_trivial
  later_trans h k := h.trans k
  symbol_later h hlater := Nat.lt_of_lt_of_le h hlater.symbols.size_le
  pure h hp := .pure ⟨hp, _, h⟩
  throw _ := .throw
  miss _ _ := .throw
  bind hf _ hk hp := (hf hp).bind fun q a hpq hq => by
    obtain ⟨hi, b, hr⟩ := hq
    exact hk q a b hpq hr hi
  symbol {_ name} _ hp := (meets_interning hI (.symbol name) (.symbol name) hp).imp
    fun _ s _ h => ⟨h.1, s, NameTable.lt_size_of_get? h.2⟩
  string {_ value} hp := (meets_interning hI (.string value) (.string value) hp).imp
    fun _ s _ h => ⟨h.1, s, NameTable.lt_size_of_get? h.2⟩
  warn {_ d} hp := (meets_interning hI (.warn d) (.warn d) hp).imp fun _ _ _ h =>
    ⟨h.1, (), trivial⟩

end Lower

section

variable {env : Env} {n : Nat} {I : Pool → Prop} {V : Pool → Nat → Code → Prop}
  {read : Token → Lower Code} {assigned : Token → Lower Slot} {R : Slot → Prop} {p : Pool}
  {hI : ∀ p q, I p → p.Interns q → I q}

theorem Lower.Comparison.Refers.fits {r r' : Reference}
    (h : (Comparison.meeting hI).Refers p r r') : r.Fits (p.limits env n) := by
  cases h with
  | symbol h => exact h
  | string h => exact h

theorem fits_of_refers {rs rs' : List Reference}
    (h : List.Forall₂ ((Comparison.meeting hI).Refers p) rs rs') :
    ∀ r ∈ rs, r.Fits (p.limits env n) := by
  induction h with
  | nil => nofun
  | cons hr _ ih => exact List.forall_mem_cons.mpr ⟨hr.fits, ih⟩

theorem Lower.Comparison.Pairs.fits {i j : Instruction}
    (h : (Comparison.meeting hI).Pairs env p i j) : i.Fits (p.limits env n) := by
  refine Instruction.fits_of_references (fits_of_refers h.references) ?_ h.called ?_
  · rintro s (rfl | rfl) <;> cases h.nameless
  · rintro f argc rfl
    cases h.nameless

theorem Lower.Comparison.Stores.fits {A : Pool → Slot → Prop} {i j : Instruction}
    (h : (Comparison.meeting hI).Stores p A i j) (hA : ∀ s, A p s → s.Fits (p.limits env n)) :
    i.Fits (p.limits env n) := by
  refine Instruction.fits_of_references (fits_of_refers h.references) ?_ ?_ ?_
  · rintro s (rfl | rfl)
    · cases h.store
    · exact hA s (h.slot s rfl)
  · rintro f argc rfl
    cases h.store
  · rintro f argc rfl
    cases h.store

theorem Straight.codes (hV : Straight env n V) :
    (Comparison.meeting hI).Codes env fun q k x _ => V q k x where
  later := hV.later
  nil := hV.nil
  append := hV.append
  apply h ht hij := hV.apply h hij.nameless ht hij.fits
  this := hV.this
  dup := hV.dup
  construct := hV.construct

theorem environments_meeting (env : Env) : (Comparison.meeting hI).Environments env env :=
  .refl fun _ _ => trivial

theorem names_meeting (e : Expr) : e.Names (Comparison.meeting hI).Proper :=
  e.names_of_forall fun _ _ => trivial

theorem operand_meeting (hread : ∀ t p, I p → Meets p (read t) fun q x => I q ∧ V q 1 x)
    (t : Token) : (Comparison.meeting hI).Operand (fun q k x _ => V q k x) 1 (read t) (read t) := by
  refine ⟨trivial, fun p hp => (hread t p hp).imp ?_⟩
  rintro q x - ⟨hq, hx⟩
  exact ⟨hq, [], hx⟩

theorem lowerExpr_meeting (hI : ∀ p q, I p → p.Interns q → I q) (hV : Straight env n V)
    (hread : ∀ t p, I p → Meets p (read t) fun q x => I q ∧ V q 1 x) (e : Expr) (hp : I p) :
    Meets p (lowerExpr env read e) fun q x => I q ∧ V q 1 x := by
  have hC : (Comparison.meeting hI).Codes env fun q k x _ => V q k x := hV.codes
  refine (lowerExpr_compares hC (environments_meeting env) (operand_meeting hread) e
    (names_meeting e) p hp).imp ?_
  rintro q x - ⟨hq, -, hx⟩
  exact ⟨hq, hx⟩

/-- What an assignment gives: straight code for what it takes, and then what stores. -/
def Stored (env : Env) (n : Nat) (V : Pool → Nat → Code → Prop) (R : Slot → Prop) (q : Pool)
    (code : Code) : Prop :=
  ∃ x i, code = x ++ [i] ∧ V q i.takes x ∧ i.isStore ∧ i.Fits (q.limits env n) ∧
    ∀ s, i = .setVariable s → R s

theorem assignOver_meeting (hI : ∀ p q, I p → p.Interns q → I q) (hV : Straight env n V)
    (hread : ∀ t p, I p → Meets p (read t) fun q x => I q ∧ V q 1 x)
    (hassigned : ∀ t p, I p → Meets p (assigned t) fun q s =>
      I q ∧ s.Fits (q.limits env n) ∧ R s) (target value : Expr) (hp : I p) :
    Meets p (assignOver env read assigned target value) fun q x =>
      I q ∧ Stored env n V R q x := by
  let A (q : Pool) (s : Slot) : Prop := s.Fits (q.limits env n) ∧ R s
  have hslot (t : Token) (p : Pool) : (Comparison.meeting hI).Rel p (assigned t) (assigned t)
      fun q s s' => s = s' ∧ A q s := by
    intro hp
    refine (hassigned t p hp).imp ?_
    rintro q s - ⟨hq, hs⟩
    exact ⟨hq, s, rfl, hs⟩
  have hA {q q' : Pool} {s : Slot} (hs : A q s) (hlater : q.Extends q') : A q' s :=
    ⟨Slot.Fits.mono (hlater.below env (Nat.le_refl _)) hs.1, hs.2⟩
  have hC : (Comparison.meeting hI).Codes env fun q k x _ => V q k x := hV.codes
  refine (assignOver_compares hC (environments_meeting env) (operand_meeting hread) hslot hA
    (names_meeting target) (names_meeting value) hp).imp ?_
  rintro q _ - ⟨hq, -, x, y, i, j, rfl, -, hx, hij⟩
  exact ⟨hq, x, i, rfl, hx, hij.store, hij.fits fun s hs => hs.1, fun s hs => (hij.slot s hs).2⟩

end

section

variable {env : Env} {n : Nat} {V : Pool → Nat → Code → Prop} {read : Token → Lower Code}
  {assigned : Token → Lower Slot} {R : Slot → Prop} {p : Pool}

/-- One value for every expression. -/
theorem lowerExpr_meets (hV : Straight env n V) (hread : ∀ t p, Meets p (read t) fun q => V q 1)
    (e : Expr) (p : Pool) : Meets p (lowerExpr env read e) fun q => V q 1 := by
  let I (_ : Pool) : Prop := True
  have hI (p q : Pool) (_ : I p) (_ : p.Interns q) : I q := trivial
  have hread (t : Token) (p : Pool) (_ : I p) : Meets p (read t) fun q x => I q ∧ V q 1 x :=
    (hread t p).imp fun _ _ _ h => ⟨trivial, h⟩
  exact (lowerExpr_meeting hI hV hread e trivial).imp fun _ _ _ h => h.2

theorem assignOver_meets (hV : Straight env n V) (hread : ∀ t p, Meets p (read t) fun q => V q 1)
    (hassigned : ∀ t p, Meets p (assigned t) fun q s => s.Fits (q.limits env n) ∧ R s)
    (target value : Expr) :
    Meets p (assignOver env read assigned target value) (Stored env n V R) := by
  let I (_ : Pool) : Prop := True
  have hI (p q : Pool) (_ : I p) (_ : p.Interns q) : I q := trivial
  have hread (t : Token) (p : Pool) (_ : I p) : Meets p (read t) fun q x => I q ∧ V q 1 x :=
    (hread t p).imp fun _ _ _ h => ⟨trivial, h⟩
  have hassigned (t : Token) (p : Pool) (_ : I p) : Meets p (assigned t) fun q s =>
      I q ∧ s.Fits (q.limits env n) ∧ R s :=
    (hassigned t p).imp fun _ _ _ h => ⟨trivial, h⟩
  exact (assignOver_meeting hI hV hread hassigned target value trivial).imp fun _ _ _ h =>
    h.2

end

/-! Slots handed out by scopes. -/

/-- The slot by which a variable is read: its own, or the counter of its loop. -/
def Variable.slotIndex : Variable → UInt16
  | .slot i => i
  | .element _ i _ => i

namespace Scopes

variable {s u : Scopes} {name : String} {v : Variable} {i : UInt16}

def Sound (s : Scopes) : Prop :=
  ∀ f ∈ s.frames, ∀ (name : String) (v : Variable), f.bindings[name]? = some v →
    v.slotIndex.toNat < s.slotCount

theorem Sound.enter (h : s.Sound) : s.enter.Sound := by
  intro f hf name v hv
  rcases Array.mem_push.mp hf with hf | rfl
  · exact h f hf name v hv
  · simp at hv

theorem Sound.exit (h : s.Sound) : s.exit.Sound := h

@[simp] theorem slotCount_enter (s : Scopes) : s.enter.slotCount = s.slotCount := rfl

@[simp] theorem slotCount_insert (s : Scopes) (name : String) (v : Variable) :
    (s.insert name v).slotCount = s.slotCount := by
  unfold insert
  split <;> rfl

theorem Sound.insert (h : s.Sound) (hv : v.slotIndex.toNat < s.slotCount) :
    (s.insert name v).Sound := by
  unfold Scopes.insert
  split
  · exact h
  · next j _ =>
    intro f hf other w hw
    obtain ⟨k, hk, hkf⟩ := Array.mem_iff_getElem.mp hf
    rw [Array.getElem_modify] at hkf
    split at hkf
    · subst hkf
      simp only [Std.TreeMap.getElem?_insert] at hw
      split at hw
      · cases hw
        exact hv
      · exact h _ (Array.getElem_mem _) other w hw
    · subst hkf
      exact h _ (Array.getElem_mem _) other w hw

theorem toNat_nextSlot_le (s : Scopes) : s.nextSlot.toNat ≤ s.slotCount := by
  unfold nextSlot
  rw [UInt16.toNat_ofNat_of_lt' (by simp only [UInt16.size]; omega)]
  exact Nat.min_le_left _ _

theorem Sound.succ (h : s.Sound) : ({ s with slotCount := s.slotCount + 1 } : Scopes).Sound :=
  fun f hf name v hv => Nat.lt_succ_of_lt (h f hf name v hv)

theorem Sound.declare (h : s.Sound) (hd : s.declare name = some (i, u)) :
    u.Sound ∧ u.slotCount = s.slotCount + 1 ∧ i.toNat < u.slotCount := by
  unfold Scopes.declare at hd
  split at hd
  · cases hd
  · cases hd
    have hslot := Nat.lt_succ_of_le s.toNat_nextSlot_le
    exact ⟨h.succ.insert hslot, by simp, by simpa using hslot⟩

theorem Sound.declareHidden (h : s.Sound) (purpose : String) :
    (s.declareHidden purpose).2.Sound ∧
      (s.declareHidden purpose).2.slotCount = s.slotCount + 1 ∧
      (s.declareHidden purpose).1.toNat < s.slotCount + 1 := by
  have hslot := Nat.lt_succ_of_le s.toNat_nextSlot_le
  have hs : ({ s with slotCount := s.slotCount + 1, hidden := s.hidden + 1 } : Scopes).Sound :=
    h.succ
  exact ⟨hs.insert hslot, by simp [Scopes.declareHidden], hslot⟩

theorem Sound.bind (h : s.Sound) (hv : v.slotIndex.toNat < s.slotCount)
    (hb : s.bind name v = some u) : u.Sound ∧ u.slotCount = s.slotCount := by
  unfold Scopes.bind at hb
  split at hb
  · cases hb
  · cases hb
    exact ⟨h.insert hv, by simp⟩

theorem Sound.resolveFrom (h : s.Sound) {frame : Nat} (hr : s.resolveFrom name frame = some v) :
    v.slotIndex.toNat < s.slotCount := by
  fun_induction Scopes.resolveFrom s name frame with
  | case1 => cases hr
  | case2 frame f hf w hw =>
    cases hr
    exact h f (Array.mem_of_getElem? hf) name v hw
  | case3 frame f hf hw q hp hlt ih => exact ih hr
  | case4 => cases hr
  | case5 => cases hr

end Scopes

section

variable {env : Env} {scopes : Scopes}

theorem readGlobal_meets (hg : env.globals.Exact) (t : Token) (p : Pool) :
    Meets p (readGlobal env t) fun _ s =>
      ∃ i : UInt16, s = .ofGlobal i ∧ i.toNat < env.globals.size := by
  unfold readGlobal
  split
  · next i hi => exact .pure ⟨i, rfl, NameTable.lt_size_of_get? (hg t.text i hi)⟩
  · exact .throw

theorem reads_meeting (henv : env.Sound scopes.slotCount) (hs : scopes.Sound) :
    (Comparison.meeting (I := fun _ => True) fun _ _ _ _ => trivial).Reads
      (fun q k x _ => Values env scopes.slotCount q k x) env env scopes where
  global t p _ := (readGlobal_meets henv.globals t p).imp fun _ s _ hs =>
    ⟨trivial, s, .one rfl rfl (Or.inr hs)⟩
  slot _ hi := .one rfl rfl (Or.inl ⟨_, rfl, hs.resolveFrom hi⟩)
  element _ hi := ⟨names_meeting _, .one rfl rfl (Or.inl ⟨_, rfl, hs.resolveFrom hi⟩)⟩

theorem readName_meets (henv : env.Sound scopes.slotCount) (hs : scopes.Sound) (t : Token)
    (p : Pool) : Meets p (readName env scopes t) fun q => Values env scopes.slotCount q 1 := by
  have hread := readName_compares (straight_values henv).codes (environments_meeting env)
    (reads_meeting henv hs) t
  refine (hread.rel p trivial).imp ?_
  rintro q x - ⟨-, -, hx⟩
  exact hx

theorem lower_meets (henv : env.Sound scopes.slotCount) (hs : scopes.Sound) (e : Expr) (p : Pool) :
    Meets p (lower env scopes e) fun q => Values env scopes.slotCount q 1 :=
  lowerExpr_meets (straight_values henv) (readName_meets henv hs) e p

end

end Lss
