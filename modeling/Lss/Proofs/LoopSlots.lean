import Lss.Proofs.Declarations

/-!
# Slots of loops

Every loop over a collection declares a counter and a bound, under names that no text can spell.
When a body comes to its end, its slots are numbered in the order of the declarations. So a number
tells whether a loop has declared the slot, and the numbers of loops come behind the parameters.
-/
namespace Lss

open Lower

def Declaration.OfLoop (d : Declaration) : Prop :=
  ∃ purpose ∈ ["index", "max"], ∃ n : Nat, d.name = "$" ++ purpose ++ toString n

def SubroutineOf.LoopSlot (s : Subroutine) (isMethod : Bool) (n : Nat) : Prop :=
  ∃ d ∈ s.declarations isMethod, d.OfLoop ∧ d.slot? = some n

namespace Declaration

variable {d : Declaration} {counts : Nat → Prop} {all : List Declaration}

theorem OfLoop.head (h : d.OfLoop) : d.name.toList.head? = some '$' := by
  obtain ⟨purpose, -, n, hname⟩ := h
  simp [hname]

theorem ofLoop_hidden {purpose : String} (h : purpose ∈ ["index", "max"]) (k m n : Nat) :
    (⟨k, "$" ++ purpose ++ toString m, some n, .synthetic⟩ : Declaration).OfLoop :=
  ⟨purpose, h, m, rfl⟩

/-- The object itself is none of a loop. -/
theorem not_ofLoop_this (k m n : Nat) :
    ¬ (⟨k, "$" ++ "this" ++ toString m, some n, .synthetic⟩ : Declaration).OfLoop := by
  rintro ⟨purpose, hpurpose, j, hname⟩
  have hsecond := congrArg (·.toList[1]?) hname
  simp only [List.mem_cons, List.not_mem_nil, or_false] at hpurpose
  rcases hpurpose with rfl | rfl <;> simp at hsecond

def Sorts (counts : Nat → Prop) (all : List Declaration) : Prop :=
  ∀ d ∈ all, ∀ n, d.slot? = some n → n < 0x8000 ∧ (counts n ↔ d.OfLoop)

end Declaration

/-! Ledgers only grow. -/

namespace Ledger

variable {L M N : Ledger}

structure Keeps (L M : Ledger) : Prop where
  made : L.made ⊆ M.made
  slots : L.slots ≤ M.slots

theorem Keeps.refl (L : Ledger) : L.Keeps L := ⟨List.Subset.refl _, Nat.le_refl _⟩

theorem Keeps.trans (h : L.Keeps M) (k : M.Keeps N) : L.Keeps N :=
  ⟨List.Subset.trans h.made k.made, Nat.le_trans h.slots k.slots⟩

theorem keeps_enter (L : Ledger) : L.Keeps L.enter := ⟨List.Subset.refl _, Nat.le_refl _⟩

theorem keeps_declare (L : Ledger) (k : Nat) (t : Token) : L.Keeps (L.declare k t) :=
  ⟨List.subset_append_left _ _, Nat.le_succ _⟩

theorem keeps_hide (L : Ledger) (k : Nat) (purpose : String) : L.Keeps (L.hide k purpose) :=
  ⟨List.subset_append_left _ _, Nat.le_succ _⟩

theorem keeps_element (L : Ledger) (k : Nat) (t : Token) : L.Keeps (L.element k t) :=
  ⟨List.subset_append_left _ _, Nat.le_refl _⟩

theorem keeps_loop (L : Ledger) (t : Token) : L.Keeps (L.loop t) :=
  (((keeps_enter L).trans (keeps_hide _ _ _)).trans (keeps_hide _ _ _)).trans (keeps_element _ _ _)

theorem keeps_declareAll (ps : List Token) (L : Ledger) : L.Keeps (ps.foldl (·.declare 0 ·) L) := by
  induction ps generalizing L with
  | nil => exact .refl L
  | cons p ps ih => exact (keeps_declare L 0 p).trans (ih _)

end Ledger

namespace Stmt

open Ledger

mutual

theorem keeps_ledger : (s : Stmt) → (k : Nat) → (L : Ledger) → L.Keeps (s.ledger k L)
  | .block ⟨body, _⟩, _, L => by
    rw [ledger]
    exact (keeps_enter L).trans (keeps_ledgerAll body _ _)
  | .var name _, k, L => by
    rw [ledger]
    exact keeps_declare L k name
  | .if_ none body _ _, k, L | .if_ (some _) body none _, k, L => by
    rw [ledger]
    exact keeps_ledger body k L
  | .if_ (some _) body (some arm) _, k, L => by
    rw [ledger]
    exact (keeps_ledger body k L).trans (keeps_ledger arm k _)
  | .while_ _ body, k, L | .doWhile body _, k, L => by
    rw [ledger]
    exact keeps_ledger body k L
  | .foreach element _ body, _, L => by
    rw [ledger]
    exact (keeps_loop L element).trans (keeps_ledger body _ _)
  | .expr _, _, L | .assign _ _, _, L | .return_ _ _, _, L | .classDecl _, _, L | .property _, _, L
  | .subroutine _, _, L | .global _, _, L => by
    rw [ledger]
    exact .refl L

theorem keeps_ledgerAll : (ss : List Stmt) → (k : Nat) → (L : Ledger) → L.Keeps (ledgerAll k ss L)
  | [], _, L => by
    rw [ledgerAll]
    exact .refl L
  | s :: ss, k, L => by
    rw [ledgerAll]
    exact (keeps_ledger s k L).trans (keeps_ledgerAll ss k _)

end

end Stmt

/-! The object itself and the parameters. -/

namespace Ledger

def Plain (L : Ledger) : Prop := ∀ n < L.slots, ∃ d ∈ L.made, d.slot? = some n ∧ ¬ d.OfLoop

theorem Plain.add {L M : Ledger} (h : L.Plain) {d : Declaration} (hmade : M.made = L.made ++ [d])
    (hslots : M.slots = L.slots + 1) (hslot : d.slot? = some L.slots) (hd : ¬ d.OfLoop) :
    M.Plain := by
  intro n hn
  rw [hmade]
  rcases Nat.lt_succ_iff_lt_or_eq.mp (hslots ▸ hn) with hn | rfl
  · obtain ⟨d', hd', hspec⟩ := h n hn
    exact ⟨d', List.mem_append_left _ hd', hspec⟩
  · exact ⟨d, List.mem_append_right _ List.mem_cons_self, hslot, hd⟩

theorem Plain.declareAll {ps : List Token} (hps : ∀ t ∈ ps, t.text.toList.head? ≠ some '$') :
    ∀ {L : Ledger}, L.Plain → (ps.foldl (·.declare 0 ·) L).Plain := by
  induction ps with
  | nil => exact id
  | cons p ps ih =>
    obtain ⟨hp, hps⟩ := List.forall_mem_cons.mp hps
    exact fun h => ih hps (h.add rfl rfl rfl fun hloop => hp hloop.head)

theorem start_plain {ps : List Token} (hps : ∀ t ∈ ps, t.text.toList.head? ≠ some '$')
    (isMethod : Bool) : (start ps isMethod).Plain := by
  have hnil : Plain {} := fun n hn => absurd hn (Nat.not_lt_zero n)
  cases isMethod with
  | false => exact hnil.declareAll hps
  | true => exact (hnil.add rfl rfl rfl (Declaration.not_ofLoop_this 0 1 0)).declareAll hps

theorem slots_start (ps : List Token) (isMethod : Bool) :
    (start ps isMethod).slots = isMethod.toNat + ps.length := by
  have hall : ∀ L : Ledger, (ps.foldl (·.declare 0 ·) L).slots = L.slots + ps.length := by
    induction ps with
    | nil => exact fun _ => rfl
    | cons p ps ih =>
      intro L
      rw [List.foldl_cons, ih, List.length_cons]
      show L.slots + 1 + ps.length = _
      omega
  rw [start, hall]
  cases isMethod <;> rfl

end Ledger

/-! Bodies that come to their end. -/

section

variable {env : Env} {s : Subroutine} {p q : Pool} {code : Code} {n : Nat}

theorem declarations_numbers (h : (lowerSubroutine env s).run.run p = (.ok code, q)) :
    ∃ n ≤ Draft.maxLocals,
      (s.declarations env.owner.isSome).filterMap (·.slot?) = List.range n := by
  obtain ⟨f, hruns, hlower⟩ := subroutineOver_tracks (Framing.runs_tracks env) s
  have hnotes := (Framing.subroutineOver_notes env s).runs .start p rfl Scopes.start_records
  have hruns := hruns .start p
  rcases hrun : (subroutineOver (Framing.keeper env) env s).run.run (.start, p) with
    ⟨e | code, U, q'⟩ <;> rw [hrun] at hnotes hruns
  · rw [hlower, map_eq_pure_bind, run_bind, hruns] at h
    cases h
  · exact ⟨U.slotCount, Framing.subroutineOver_slots hrun, hnotes.numbers⟩

/-- A number tells whether a loop has the slot. -/
theorem declarations_sorts (h : (lowerSubroutine env s).run.run p = (.ok code, q)) :
    Declaration.Sorts (s.LoopSlot env.owner.isSome) (s.declarations env.owner.isSome) := by
  obtain ⟨count, hcount, hnumbers⟩ := declarations_numbers h
  have hpairs : (s.declarations env.owner.isSome).Pairwise fun d d' =>
      ∀ n, d.slot? = some n → d'.slot? = some n → d = d' := by
    have hnodup : ((s.declarations env.owner.isSome).filterMap (·.slot?)).Nodup := by
      rw [hnumbers]
      exact List.nodup_range
    exact (List.pairwise_filterMap.mp hnodup).imp fun hne n hd hd' => absurd rfl (hne n hd n hd')
  have hunique := hpairs.forall_of_forall_of_flip (fun _ _ _ _ _ => rfl)
    (hpairs.imp fun heq n hd' hd => (heq n hd hd').symm)
  intro d hd n hn
  have hmem : n ∈ (s.declarations env.owner.isSome).filterMap (·.slot?) :=
    List.mem_filterMap.mpr ⟨d, hd, hn⟩
  rw [hnumbers, List.mem_range] at hmem
  refine ⟨Nat.lt_succ_of_lt (Nat.lt_of_lt_of_le hmem hcount), ?_, fun hloop => ⟨d, hd, hloop, hn⟩⟩
  rintro ⟨d', hd', hloop, hn'⟩
  exact hunique hd hd' n hn hn' ▸ hloop

/-- Slots of loops come behind the object itself and the parameters. -/
theorem SubroutineOf.LoopSlot.start_le {isMethod : Bool}
    (hsorts : Declaration.Sorts (s.LoopSlot isMethod) (s.declarations isMethod))
    (hparameters : ∀ t ∈ s.parameters, t.text.toList.head? ≠ some '$')
    (h : s.LoopSlot isMethod n) : isMethod.toNat + s.parameters.length ≤ n := by
  refine Nat.le_of_not_lt fun hlt => ?_
  rw [← Ledger.slots_start] at hlt
  obtain ⟨d, hd, hslot, hplain⟩ := Ledger.start_plain hparameters isMethod n hlt
  have hd := (Stmt.keeps_ledgerAll s.body.statements 0 _).made hd
  exact hplain ((hsorts d hd n hslot).2.mp h)

end

end Lss
