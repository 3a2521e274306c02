import Lss.Proofs.Probed
import Lss.Proofs.Stretches

/-!
# Stretches narrow

A probe never reads outside the code and never runs out of turns, and it gives what the reading of
the body gives: whatever the branches of the code, positions move forward, and a stretch that is
read on its own is part of the one around it and shorter.
-/
namespace Lss

namespace Body

open Probe

variable {b : Body} {code : Code} {i stop : Nat}

theorem Laid.exists_getElem? (hl : b.Laid code) (hi : i < code.length) :
    ∃ x, b.code[i]? = some x :=
  ⟨code[i], by rw [hl.getElem?, List.getElem?_eq_getElem hi]⟩

theorem Laid.probeTarget (hl : b.Laid code) (hi : i < code.length) :
    Agrees (b.probeTarget i) (b.target i) := by
  obtain ⟨x, hcode⟩ := hl.exists_getElem? hi
  have hoffset := hl.offsets (i + 1) hi
  unfold Body.probeTarget Body.target
  refine (agrees_fetch hcode).then ?_
  rw [hcode]
  cases hd : x.distance? with
  | none => simpa only [hd] using agrees_reject _
  | some d =>
    simp only [hd, hoffset, Option.getD_some]
    refine (agrees_fetch hoffset).then ?_
    split
    · exact agrees_reject _
    · cases hplace : b.places[((code.offset (i + 1) : Int) + d.toInt).toNat]? with
      | none => exact agrees_reject _
      | some place => exact agrees_pure _

theorem Laid.backEdges (hl : b.Laid code) (e : Std.TreeMap Nat (List Nat)) :
    Laid { b with backEdges := e } code :=
  ⟨hl.toArray, hl.offsets, hl.places⟩

theorem Laid.probeBack (hl : b.Laid code) {instruction : Instruction} (hi : i < code.length) :
    Agrees (b.probeBack i instruction) (b.noteBack i instruction) := by
  -- the two branches that can lead back are noted alike
  have hbranch (distance : Int16) : Agrees (b.probeBack i (.branch .always distance))
      (b.noteBack i (.branch .always distance)) := by
    unfold Body.probeBack Body.noteBack
    refine (hl.probeTarget hi).bind (fun e he => by simp only [he]) fun t ht => ?_
    simp only [ht]
    split
    · exact agrees_pure _
    · exact agrees_pure _
  cases instruction with
  | branch kind distance =>
    cases kind with
    | ifFalse => exact agrees_pure _
    | always => exact hbranch distance
    | ifTrue => exact hbranch distance
  | _ => exact agrees_pure _

theorem Laid.probeAll (hl : b.Laid code) {x y : Code} (hcode : code = x ++ y) :
    Agrees (b.probeAll x.length y) (b.noteAll x.length y) := by
  induction y generalizing b x with
  | nil => exact agrees_pure b
  | cons instruction y ih =>
    unfold Body.probeAll Body.noteAll
    have hi : x.length < code.length := by simp [hcode]
    refine (hl.probeBack hi).bind (fun e he => by rw [he]) fun d hd => ?_
    rw [hd]
    dsimp only
    have hlen : x.length + 1 = (x ++ [instruction]).length := by simp
    rw [hlen]
    refine ih ?_ (by simp [hcode])
    obtain rfl | ⟨_, _, _, -, -, -, rfl⟩ := noteBack_eq_ok hd
    · exact hl
    · exact hl.backEdges _

/-- Loops are noted at their heads by branches in the first `k` instructions, latest first. -/
structure Ranked (b : Body) (k : Nat) : Prop where
  edges : ∀ head, ∀ j ∈ b.backEdges.getD head [], head ≤ j ∧ j < k
  sorted : ∀ head, (b.backEdges.getD head []).Pairwise (· > ·)

theorem Ranked.noteBack {d : Body} {k : Nat} {instruction : Instruction} (h : b.Ranked k)
    (hd : b.noteBack k instruction = .ok d) : d.Ranked (k + 1) := by
  obtain rfl | ⟨_, _, t, -, -, hle, rfl⟩ := noteBack_eq_ok hd
  · exact ⟨fun head j hj => ⟨(h.edges head j hj).1, Nat.lt_succ_of_lt (h.edges head j hj).2⟩,
      h.sorted⟩
  · refine ⟨fun head j hj => ?_, fun head => ?_⟩
    · dsimp only at hj
      rw [Std.TreeMap.getD_insert] at hj
      split at hj
      · next heq =>
        obtain rfl := Std.LawfulEqCmp.eq_of_compare heq
        rcases List.mem_cons.mp hj with rfl | hj
        · exact ⟨hle, Nat.lt_succ_self _⟩
        · exact ⟨(h.edges t j hj).1, Nat.lt_succ_of_lt (h.edges t j hj).2⟩
      · exact ⟨(h.edges head j hj).1, Nat.lt_succ_of_lt (h.edges head j hj).2⟩
    · dsimp only
      rw [Std.TreeMap.getD_insert]
      split
      · exact List.pairwise_cons.mpr ⟨fun j hj => (h.edges t j hj).2, h.sorted t⟩
      · exact h.sorted head

theorem Ranked.noteAll {d : Body} {k : Nat} {y : Code} (h : b.Ranked k)
    (hd : b.noteAll k y = .ok d) : d.Ranked (k + y.length) := by
  induction y generalizing b k with
  | nil =>
    cases hd
    exact h
  | cons instruction y ih =>
    unfold Body.noteAll at hd
    split at hd
    · cases hd
    · next hnote =>
      have hall := ih (h.noteBack hnote) hd
      rwa [Nat.add_assoc, Nat.add_comm 1] at hall

/-- In a list with the latest first, the last branch before `stop` is the first one found. -/
theorem Ranked.lastBack? {k : Nat} (h : b.Ranked k) (head stop : Nat) :
    b.lastBack? head stop = b.loopEnd? head stop := by
  have hsorted := ((h.sorted head).filter fun j => decide (j < stop)).imp
    fun hgt => Nat.max_eq_left (Nat.le_of_lt hgt)
  unfold Body.lastBack? loopEnd?
  rw [List.max?_eq_head? hsorted, ← List.head?_filter]
  refine congrArg List.head? (List.filter_congr fun j hj => ?_)
  simp [(h.edges head j hj).1]

theorem between_of_loopEnd? {head back : Nat}
    (hback : b.loopEnd? head stop = some back) : head ≤ back ∧ back < stop := by
  have := List.find?_some hback
  simpa using this

def leaves (b : Body) (place k : Nat) : Bool :=
  match b.code[k]? with
  | some (.branch .ifFalse _) =>
    match b.target k with
    | .ok t => t == place
    | .error _ => false
  | _ => false

theorem loopExit?_leaves (b : Body) (head back : Nat) :
    b.loopExit? head back = (List.range' head (back - head)).find? (b.leaves (back + 1)) := rfl

theorem Laid.probeLeaves (hl : b.Laid code) {k : Nat} (hk : k < code.length) (place : Nat) :
    Agrees (b.probeLeaves place k) (.ok (b.leaves place k)) := by
  obtain ⟨x, hcode⟩ := hl.exists_getElem? hk
  have htarget : Agrees (do return (← b.probeTarget k) == place)
      ((b.target k).bind fun t => .ok (t == place)) := by
    refine (hl.probeTarget hk).bind (fun e he => by rw [he]; rfl) fun t ht => ?_
    rw [ht]
    exact agrees_pure _
  have hattempt := agrees_attempt htarget
  unfold Body.probeLeaves leaves
  refine (agrees_fetch hcode).then ?_
  rw [hcode]
  cases x with
  | branch kind d =>
    cases kind with
    | ifFalse =>
      cases ht : b.target k with
      | error e =>
        rw [ht] at hattempt
        exact hattempt
      | ok t =>
        rw [ht] at hattempt
        exact hattempt
    | _ => exact agrees_pure _
  | _ => exact agrees_pure _

theorem Laid.probeExit (hl : b.Laid code) (place : Nat) {ks : List Nat}
    (hks : ∀ k ∈ ks, k < code.length) :
    Agrees (b.probeExit place ks) (.ok (ks.find? (b.leaves place))) := by
  induction ks with
  | nil => exact agrees_pure none
  | cons k ks ih =>
    unfold Body.probeExit
    refine (hl.probeLeaves (hks k List.mem_cons_self) place).then ?_
    rw [List.find?_cons]
    cases b.leaves place k with
    | true => exact agrees_pure (some k)
    | false => exact ih fun j hj => hks j (List.mem_cons_of_mem k hj)

/-- What holds of a body once it is laid out: places are bytes at which instructions start, or the
end, loops are noted in order, and branches that hold on any condition lead somewhere. -/
structure Prepared (b : Body) (code : Code) : Prop where
  laid : b.Laid code
  placed : ∀ o t, b.places[o]? = some t → t ≤ code.length ∧ code.offset t = o
  ranked : b.Ranked code.length
  lands : ∀ j d, code[j]? = some (.branch .always d) → ∃ t, b.target j = .ok t

theorem lands_of_noteAll {d : Body} {k : Nat} {y : Code} (hd : b.noteAll k y = .ok d) :
    ∀ j distance, y[j]? = some (.branch .always distance) → ∃ t, b.target (k + j) = .ok t := by
  induction y generalizing b k with
  | nil => exact fun j _ hj => nomatch hj
  | cons instruction y ih =>
    intro j distance hj
    unfold Body.noteAll at hd
    split at hd
    · cases hd
    · next b' hnote =>
      cases j with
      | zero =>
        cases hj
        simp only [Body.noteBack] at hnote
        split at hnote
        · cases hnote
        · next t ht => exact ⟨t, ht⟩
      | succ j =>
        obtain ⟨t, ht⟩ := ih hd j distance hj
        refine ⟨t, ?_⟩
        rw [Nat.add_assoc, Nat.add_comm 1] at ht
        obtain rfl | ⟨_, _, _, -, -, -, rfl⟩ := noteBack_eq_ok hnote
        · exact ht
        · exact ht

theorem prepared_of_ofCode {l : Library} {names : SlotNames} (hb : ofCode l names code = .ok b) :
    b.Prepared code := by
  rw [ofCode_eq] at hb
  have hempty : (layout l names code).Ranked 0 := by
    refine ⟨fun head j hj => ?_, fun head => ?_⟩
    · simp [layout] at hj
    · simp [layout]
  have hranked := hempty.noteAll hb
  rw [Nat.zero_add] at hranked
  have hlands := lands_of_noteAll hb
  obtain ⟨e, rfl⟩ := noteAll_eq_ok hb
  refine ⟨(layout_laid l names code).backEdges e, fun o t ht => ?_, hranked, fun j d hj => ?_⟩
  · have hplace : (layout l names code).places[o]? = some t := ht
    exact layout_placed hplace
  · obtain ⟨t, ht⟩ := hlands j d hj
    rw [Nat.zero_add] at ht
    exact ⟨t, ht⟩

/-- A branch over a distance above zero leads forward. -/
theorem Prepared.lt_target (h : b.Prepared code) {j t : Nat} {kind : BranchKind} {d : Int16}
    (hj : b.code[j]? = some (.branch kind d)) (hd : 0 < d) (ht : b.target j = .ok t) : j < t := by
  have hlt : j < code.length := by
    rw [h.laid.getElem?] at hj
    exact (List.getElem?_eq_some_iff.mp hj).1
  have hpos : 0 < d.toInt := Int16.lt_iff_toInt_lt.mp hd
  unfold target at ht
  rw [hj] at ht
  simp only [Instruction.distance?, h.laid.offsets (j + 1) hlt, Option.getD_some] at ht
  split at ht
  · cases ht
  · split at ht
    · next hplace =>
      cases ht
      obtain ⟨hle, hoffset⟩ := h.placed _ _ hplace
      by_contra hback
      have : code.offset t ≤ code.offset (j + 1) :=
        Nat.le_of_lt (Code.offset_lt (by omega) (by omega))
      omega
    · cases ht

variable {stack : OperandStack} {acc : List Stmt}
  {inner : Nat → Nat → Probe (List Stmt × OperandStack)}

/-- Stretches that lie behind `i`, before `stop` and are shorter are read as the body reads them. -/
def Inner (b : Body) (i stop : Nat) (inner : Nat → Nat → Probe (List Stmt × OperandStack)) : Prop :=
  ∀ first last, i ≤ first → first ≤ last → last ≤ stop → last - first < stop - i →
    Agrees (inner first last) (b.region [] [] first last)

theorem Inner.settled (h : b.Inner i stop inner) {first last : Nat} (hfirst : i ≤ first)
    (hle : first ≤ last) (hlast : last ≤ stop) (hlt : last - first < stop - i) :
    Agrees (probeSettled inner first last) ((b.region [] [] first last).bind (settled last)) := by
  refine (h first last hfirst hle hlast hlt).bind (fun e he => by rw [he]; rfl) fun r hr => ?_
  rw [hr]
  exact agrees_ofExcept _

variable {back : Nat} {k : Stmt → Probe (List Stmt × OperandStack)}

theorem Inner.doWhile (h : b.Inner i stop inner) (hi : i < stop)
    (hback : (if stack.isEmpty then b.loopEnd? i stop else none) = some back)
    (hin : i ≤ back ∧ back < stop) {x : Instruction} (hx : b.code[i]? = some x) {d : Int16}
    (hcode : b.code[back]? = some (.branch .ifTrue d))
    (hk : ∀ s, Agrees (k s) (b.region stack (s :: acc) (back + 1) stop)) :
    Agrees (probeDoWhile inner i back >>= k) (b.region stack acc i stop) := by
  rw [region, dif_pos hi, hback, hx]
  simp only [dif_pos hin, hcode]
  unfold probeDoWhile
  rw [bind_assoc]
  refine (h i back (Nat.le_refl i) hin.1 (Nat.le_of_lt hin.2) (by omega)).bind
    (fun e he => by rw [he]) fun r hr => ?_
  rw [hr]
  rcases r with ⟨body, _ | ⟨value, _ | _⟩⟩
  · exact agrees_reject_bind _ k
  · dsimp only
    rw [bind_assoc]
    refine (agrees_ofExcept _).bind (fun e he => by rw [he]) fun c hc => ?_
    rw [hc, pure_bind]
    exact hk _
  · exact agrees_reject_bind _ k

theorem Inner.while_ (h : b.Inner i stop inner) (hl : b.Laid code) (hi : i < stop)
    (hstop : stop ≤ code.length)
    (hback : (if stack.isEmpty then b.loopEnd? i stop else none) = some back)
    (hin : i ≤ back ∧ back < stop) {x : Instruction} (hx : b.code[i]? = some x)
    (hcode : ∀ d, b.code[back]? ≠ some (.branch .ifTrue d))
    (hk : ∀ s, Agrees (k s) (b.region stack (s :: acc) (back + 1) stop)) :
    Agrees (probeWhile inner b i back >>= k) (b.region stack acc i stop) := by
  have hexits : ∀ j ∈ List.range' i (back - i), j < code.length := by
    intro j hj
    have := List.mem_range'_1.mp hj
    omega
  rw [region, dif_pos hi, hback, hx]
  simp only [dif_pos hin]
  unfold probeWhile
  rw [bind_assoc]
  refine (hl.probeExit (back + 1) hexits).then ?_
  rw [← loopExit?_leaves]
  cases hexit : b.loopExit? i back with
  | none => exact agrees_reject_bind _ k
  | some exit =>
    have hbetween : i ≤ exit ∧ exit < back := by
      rw [loopExit?_leaves] at hexit
      have := List.mem_range'_1.mp (List.mem_of_find?_eq_some hexit)
      omega
    simp only [dif_pos hbetween]
    rw [bind_assoc]
    refine (h i exit (Nat.le_refl i) hbetween.1 (by omega) (by omega)).bind
      (fun e he => by rw [he]) fun r hr => ?_
    rw [hr]
    rcases r with ⟨_ | _, _ | ⟨value, _ | _⟩⟩
    case nil.cons.nil =>
      simp only [bind_assoc]
      refine (agrees_ofExcept _).bind (fun e he => by rw [he]) fun c hc => ?_
      rw [hc]
      refine (h.settled (by omega) (by omega) (by omega) (by omega)).bind
        (fun e he => by rw [he]) fun body hbody => ?_
      rw [hbody, pure_bind]
      exact hk _
    all_goals exact agrees_reject_bind _ k

theorem Inner.loop (h : b.Inner i stop inner) (hl : b.Laid code) (hi : i < stop)
    (hstop : stop ≤ code.length)
    (hback : (if stack.isEmpty then b.loopEnd? i stop else none) = some back)
    (hin : i ≤ back ∧ back < stop)
    (hk : ∀ s, Agrees (k s) (b.region stack (s :: acc) (back + 1) stop)) :
    Agrees (probeLoop inner b i back >>= k) (b.region stack acc i stop) := by
  obtain ⟨x, hx⟩ := hl.exists_getElem? (Nat.lt_of_lt_of_le hi hstop)
  obtain ⟨y, hy⟩ := hl.exists_getElem? (Nat.lt_of_lt_of_le hin.2 hstop)
  unfold probeLoop
  rw [bind_assoc]
  refine (agrees_fetch hy).then ?_
  split
  · exact h.doWhile hi hback hin hx hy hk
  · next hdo =>
    refine h.while_ hl hi hstop hback hin hx (fun d hd => ?_) hk
    rw [hy] at hd
    exact hdo d (Option.some.inj hd)

variable {t last join : Nat} {k : Stmt × Nat → Probe (List Stmt × OperandStack)}

theorem opening_without_arm (ht : b.target i = .ok t) (hin : i < t ∧ t ≤ stop)
    (hno : i < t - 1 → ∀ d, b.code[t - 1]? = some (.branch .always d) → ¬ 0 < d) :
    b.opening i stop = .ok (.plain t hin.1 hin.2) := by
  unfold opening
  simp only [ht, dif_pos hin]
  split
  · next hlast =>
    split
    · next d hcode => rw [if_neg (hno hlast d hcode)]
    · rfl
  · rfl

theorem opening_withElse {d : Int16} (ht : b.target i = .ok t) (hin : i < t ∧ t ≤ stop)
    (hlast : i < t - 1) (hcode : b.code[t - 1]? = some (.branch .always d)) (hd : 0 < d)
    (hjoin : b.target (t - 1) = .ok join) :
    b.opening i stop = .ok (.withElse (t - 1) join hlast (pred_lt_of_le hin)) := by
  unfold opening
  simp only [ht, dif_pos hin, dif_pos hlast, hcode, if_pos hd, hjoin]

def Goes (b : Body) (acc : List Stmt) (i stop : Nat)
    (k : Stmt × Nat → Probe (List Stmt × OperandStack)) : Prop :=
  ∀ s next, i < next → next ≤ stop → Agrees (k (s, next)) (b.region [] (s :: acc) next stop)

theorem Inner.plain (h : b.Inner i stop inner) (hin : i < t ∧ t ≤ stop) {d : Int16}
    (hcode : b.code[i]? = some (.branch .ifFalse d)) (hi : i < stop)
    (hback : (if stack.isEmpty then b.loopEnd? i stop else none) = none)
    (hshape : b.opening i stop = .ok (.plain t hin.1 hin.2)) {c : Expr}
    (hc : condition i stack = .ok c) (hk : b.Goes acc i stop k) :
    Agrees (probePlain inner c i t >>= k) (b.region stack acc i stop) := by
  rw [region, dif_pos hi, hback, hcode]
  simp only [hshape, hc]
  unfold probePlain
  rw [bind_assoc]
  refine (h.settled (Nat.le_succ i) hin.1 hin.2 (by omega)).bind (fun e he => by rw [he])
    fun body hbody => ?_
  rw [hbody, pure_bind]
  exact hk _ t hin.1 hin.2

theorem Inner.else_ (h : b.Inner i stop inner) (hb : b.Prepared code) (hstop : stop ≤ code.length)
    {d d' : Int16} (hcode : b.code[i]? = some (.branch .ifFalse d)) (hi : i < stop)
    (hback : (if stack.isEmpty then b.loopEnd? i stop else none) = none) (hlast : i < last)
    (hlt : last < stop) (hend : b.code[last]? = some (.branch .always d')) (hd : 0 < d')
    (hshape : ∀ join, b.target last = .ok join →
      b.opening i stop = .ok (.withElse last join hlast hlt)) {c : Expr}
    (hc : condition i stack = .ok c) (hk : b.Goes acc i stop k) :
    Agrees (probeElse inner b stop c i last >>= k) (b.region stack acc i stop) := by
  obtain ⟨join, hjoin⟩ := hb.lands last d' (by rw [← hb.laid.getElem?]; exact hend)
  have hforward := hb.lt_target hend hd hjoin
  rw [region, dif_pos hi, hback, hcode]
  simp only [hshape join hjoin, hc]
  unfold probeElse
  rw [bind_assoc]
  have hprobe := hb.laid.probeTarget (i := last) (by omega)
  rw [hjoin] at hprobe
  refine hprobe.then ?_
  split
  · next hfar =>
    rw [dif_neg (by omega)]
    exact agrees_reject_bind _ k
  · next hnear =>
    rw [dif_pos ⟨hforward, by omega⟩]
    simp only [bind_assoc]
    refine (h.settled (by omega) (by omega) (by omega) (by omega)).bind
      (fun e he => by rw [he]) fun body hbody => ?_
    rw [hbody]
    refine (h.settled (by omega) (by omega) (by omega) (by omega)).bind
      (fun e he => by rw [he]) fun arm harm => ?_
    rw [harm, pure_bind]
    exact hk _ join (by omega) (by omega)

/-- An `if` whose branch leads forward in the stretch has a shape. -/
theorem Prepared.opening (hb : b.Prepared code) (ht : b.target i = .ok t)
    (hin : i < t ∧ t ≤ stop) : ∃ shape, b.opening i stop = .ok shape := by
  by_cases helse : i < t - 1 ∧ ∃ d, b.code[t - 1]? = some (.branch .always d) ∧ 0 < d
  · obtain ⟨hlast, d, hcode, hd⟩ := helse
    obtain ⟨join, hjoin⟩ := hb.lands (t - 1) d (by rw [← hb.laid.getElem?]; exact hcode)
    exact ⟨_, opening_withElse ht hin hlast hcode hd hjoin⟩
  · exact ⟨_, opening_without_arm ht hin fun hlast d hcode hd => helse ⟨hlast, d, hcode, hd⟩⟩

theorem Inner.if_ (h : b.Inner i stop inner) (hb : b.Prepared code) (hstop : stop ≤ code.length)
    {d : Int16} (hcode : b.code[i]? = some (.branch .ifFalse d)) (hi : i < stop)
    (hback : (if stack.isEmpty then b.loopEnd? i stop else none) = none)
    (hk : b.Goes acc i stop k) :
    Agrees (probeIf inner b stop stack i >>= k) (b.region stack acc i stop) := by
  -- an `if` without a shape or a condition is rejected for that
  have hrejected (e : DecompileError) (he : b.opening i stop = .error e ∨
      ∃ shape, b.opening i stop = .ok shape ∧ condition i stack = .error e) :
      b.region stack acc i stop = .error e := by
    rw [region, dif_pos hi, hback, hcode]
    rcases he with he | ⟨shape, hshape, he⟩
    · simp only [he]
    · simp only [hshape, he]
  unfold probeIf
  rw [bind_assoc]
  refine (hb.laid.probeTarget (by omega)).bind
    (fun e he => hrejected e (Or.inl (by simp only [Body.opening, he]))) fun t ht => ?_
  split
  · rw [hrejected (.unstructured i) (Or.inl ?_)]
    · exact agrees_reject_bind _ k
    · simp only [Body.opening, ht]
      rw [dif_neg (by omega)]
  · have hin : i < t ∧ t ≤ stop := by omega
    obtain ⟨shape, hshape⟩ := hb.opening ht hin
    rw [bind_assoc]
    refine (agrees_ofExcept _).bind
      (fun e he => hrejected e (Or.inr ⟨shape, hshape, he⟩)) fun c hc => ?_
    have hplain (hno : i < t - 1 → ∀ d, b.code[t - 1]? = some (.branch .always d) → ¬ 0 < d) :
        Agrees (probePlain inner c i t >>= k) (b.region stack acc i stop) :=
      h.plain hin hcode hi hback (opening_without_arm ht hin hno) hc hk
    split
    · next hlast =>
      obtain ⟨x, hend⟩ := hb.laid.exists_getElem? (i := t - 1) (by omega)
      rw [bind_assoc]
      refine (agrees_fetch hend).then ?_
      split
      · split
        · next hd =>
          exact h.else_ hb hstop hcode hi hback hlast (pred_lt_of_le hin) hend hd
            (fun join hjoin => opening_withElse ht hin hlast hend hd hjoin) hc hk
        · next hd =>
          refine hplain fun _ d hd' => ?_
          rw [hend] at hd'
          cases hd'
          exact hd
      · next hno =>
        refine hplain fun _ d hd' => ?_
        rw [hend] at hd'
        exact absurd (Option.some.inj hd') (hno d)
    · next hlast => exact hplain fun hlast' => absurd hlast' hlast

/-- A turn is probed as it is read, if what follows it is. -/
theorem Inner.turn (h : b.Inner i stop inner) (hb : b.Prepared code) (hstop : stop ≤ code.length)
    (hi : i < stop) {k : OperandStack × List Stmt × Nat → Probe (List Stmt × OperandStack)}
    (hk : ∀ stack acc next, i < next → next ≤ stop →
      Agrees (k (stack, acc, next)) (b.region stack acc next stop)) :
    Agrees (probeTurn inner b stop stack acc i >>= k) (b.region stack acc i stop) := by
  obtain ⟨x, hcode⟩ := hb.laid.exists_getElem? (Nat.lt_of_lt_of_le hi hstop)
  unfold probeTurn
  rw [hb.ranked.lastBack?]
  cases hback : (if stack.isEmpty then b.loopEnd? i stop else none) with
  | some back =>
    have hin : i ≤ back ∧ back < stop := by
      split at hback
      · exact between_of_loopEnd? hback
      · cases hback
    simp only [bind_assoc, pure_bind]
    exact h.loop hb.laid hi hstop hback hin fun s => hk _ _ _ (by omega) (by omega)
  | none =>
    rw [bind_assoc]
    refine (agrees_fetch hcode).then ?_
    split
    · rw [bind_assoc]
      refine h.if_ hb hstop hcode hi hback fun s next hlt hle => ?_
      exact hk _ _ _ hlt hle
    · rw [region, dif_pos hi, hback, hcode]
      dsimp only
      split
      · exact hk _ _ _ (Nat.lt_succ_self i) hi
      · exact agrees_reject_bind _ k
    · rw [region, dif_pos hi, hback, hcode]
      exact agrees_reject_bind _ k
    · rw [region, dif_pos hi, hback, hcode]
      rcases hrun : (step b.library b.names x i).run.run stack with
        ⟨e | _ | s, stack'⟩
      · simp only [hrun]
        exact agrees_reject_bind e k
      · simp only [hrun, pure_bind]
        exact hk _ _ _ (Nat.lt_succ_self i) hi
      · simp only [hrun, pure_bind]
        exact hk _ _ _ (Nat.lt_succ_self i) hi

/-- A stretch is probed as it is read, with more turns than it has instructions. -/
theorem Prepared.probeRegion (hb : b.Prepared code) {turns start : Nat} (hturns : stop - i < turns)
    (hstart : start ≤ i) (hstop : stop ≤ code.length) :
    Agrees (b.probeRegion turns start stop stack acc i) (b.region stack acc i stop) := by
  induction turns generalizing start stop stack acc i with
  | zero => exact absurd hturns (Nat.not_lt_zero _)
  | succ turns ih =>
    unfold Body.probeRegion
    split
    · next hi =>
      refine Inner.turn (fun first last hfirst hle hlast hlt => ?_) hb hstop hi
        fun stack acc next hlt hle => ?_
      · have hnarrows : (Event.descend start stop first last).Narrows :=
          ⟨by omega, hle, hlast, by omega⟩
        exact (agrees_note hnarrows).then (ih (by omega) (Nat.le_refl first) (by omega))
      · have hnarrows : (Event.advance start stop i next).Narrows := ⟨hstart, hlt, hle⟩
        exact (agrees_note hnarrows).then (ih (by omega) (by omega) hstop)
    · next hi =>
      rw [region, dif_neg hi]
      exact agrees_pure _

/-- However the branches of code are made, a probe of it gives what is read off it: no place
outside is read and the turns suffice. Positions move forward, and what is read on its own lies
inside the stretch it is part of and is shorter. -/
theorem probe_narrows (l : Library) (names : SlotNames) (code : Code) :
    ∃ events, (probe l names code).run.run [] =
        (((ofCode l names code).bind statements).mapError .rejected, events) ∧
      ∀ e ∈ events, e.Narrows := by
  have hagrees : Agrees (probe l names code) ((ofCode l names code).bind statements) := by
    unfold probe
    have hlaid := layout_laid l names code
    rw [ofCode_eq]
    refine (hlaid.probeAll (x := []) rfl).bind (fun e he => ?_) fun b hb => ?_
    · rw [List.length_nil] at he
      rw [he]
      rfl
    · rw [List.length_nil, ← ofCode_eq] at hb
      have hprepared := prepared_of_ofCode hb
      rw [← ofCode_eq, hb]
      have hsize : b.code.size = code.length := by simp [hprepared.laid.toArray]
      refine (hprepared.probeRegion (by omega) (Nat.le_refl 0) (by omega)).bind (fun e he => ?_)
        fun r hr => ?_
      · show (b.region [] [] 0 b.code.size).bind _ = _
        rw [he]
        rfl
      · show Agrees _ ((b.region [] [] 0 b.code.size).bind _)
        rw [hr]
        exact agrees_ofExcept _
  obtain ⟨events, hrun, hsound⟩ := hagrees []
  exact ⟨events, hrun, hsound⟩

end Body

end Lss
