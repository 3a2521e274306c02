import Lss.Lifting.Structure
import Lss.Proofs.Sites

/-!
# Bodies laid out

Where branches lead to in a laid out body, and which of its loops ends last.
-/
namespace Lss

namespace Code

def Jumps (code : Code) (j t : Nat) : Prop :=
  ∃ kind distance, code[j]? = some (.branch kind distance) ∧ t ≤ code.length ∧
    (code.offset (j + 1) : Int) + distance.toInt = code.offset t

def BackEdge (code : Code) (j t : Nat) : Prop :=
  t ≤ j ∧ ∃ kind distance, code[j]? = some (.branch kind distance) ∧ kind ≠ .ifFalse ∧
    (code.offset (j + 1) : Int) + distance.toInt = code.offset t

def Lands (code : Code) : Prop :=
  ∀ i kind distance, code[i]? = some (.branch kind distance) → ∃ t, code.Jumps i t

variable {code : Code}

theorem eq_of_offset_eq {i j : Nat} (hi : i ≤ code.length) (hj : j ≤ code.length)
    (h : code.offset i = code.offset j) : i = j := by
  rcases Nat.lt_trichotomy i j with hlt | heq | hlt
  · have := offset_lt hlt hj
    omega
  · exact heq
  · have := offset_lt hlt hi
    omega

theorem Jumps.unique {j t u : Nat} (h : code.Jumps j t) (k : code.Jumps j u) : t = u := by
  obtain ⟨kind, distance, hj, ht, hland⟩ := h
  obtain ⟨kind', distance', hj', hu, hland'⟩ := k
  rw [hj] at hj'
  cases hj'
  exact eq_of_offset_eq ht hu (by omega)

theorem BackEdge.jumps {j t : Nat} (h : code.BackEdge j t) : code.Jumps j t := by
  obtain ⟨hle, kind, distance, hj, -, hland⟩ := h
  have hlt := (List.getElem?_eq_some_iff.mp hj).1
  exact ⟨kind, distance, hj, by omega, hland⟩

theorem Jumps.backEdge {j t : Nat} {kind : BranchKind} {distance : Int16} (h : code.Jumps j t)
    (hj : code[j]? = some (.branch kind distance)) (hkind : kind ≠ .ifFalse) (hle : t ≤ j) :
    code.BackEdge j t := by
  obtain ⟨kind', distance', hj', -, hland⟩ := h
  rw [hj] at hj'
  cases hj'
  exact ⟨hle, kind, distance, hj, hkind, hland⟩

theorem offset_append_left {x y : Code} {k : Nat} (h : k ≤ x.length) :
    (x ++ y).offset k = x.offset k := by
  unfold offset
  rw [List.take_append_of_le_length h]

theorem offset_append_right (x y : Code) (k : Nat) :
    (x ++ y).offset (x.length + k) = Code.size x + y.offset k := by
  unfold offset
  rw [List.take_length_add_append, Code.size_append]

/-- A branch leads to the end of whatever code has the right size. -/
theorem jumps_of_size {u v a : Code} {kind : BranchKind} {distance : Int16}
    (hcode : code = u ++ .branch kind distance :: v) (ha : a <+: code)
    (hsize : (Code.size a : Int) = Code.size u + 3 + distance.toInt) :
    code.Jumps u.length a.length := by
  have hu : code[u.length]? = some (.branch kind distance) := by simp [hcode]
  refine ⟨kind, distance, hu, ha.length_le, ?_⟩
  have hbefore : code.offset u.length = Code.size u := by
    rw [hcode, offset_append_left (Nat.le_refl _), offset, List.take_length]
  have hafter : code.offset a.length = Code.size a := by
    rw [offset, ← List.prefix_iff_eq_take.mp ha]
  rw [offset_succ hu, hbefore, hafter, Instruction.size_branch]
  omega

theorem Jumps.between {x : Code} {k t : Nat} (h : x.Jumps k t) (pre post : Code) :
    (pre ++ x ++ post).Jumps (pre.length + k) (pre.length + t) := by
  obtain ⟨kind, distance, hk, ht, hland⟩ := h
  have hlt := (List.getElem?_eq_some_iff.mp hk).1
  have hoffset (n : Nat) (hn : n ≤ x.length) :
      (pre ++ x ++ post).offset (pre.length + n) = Code.size pre + x.offset n := by
    rw [List.append_assoc, offset_append_right, offset_append_left hn]
  refine ⟨kind, distance, ?_, by simp only [List.length_append]; omega, ?_⟩
  · rw [List.append_assoc, List.getElem?_append_right (Nat.le_add_right _ _),
      Nat.add_sub_cancel_left, List.getElem?_append_left hlt]
    exact hk
  · rw [Nat.add_assoc, hoffset (k + 1) hlt, hoffset t ht]
    omega

def Clear (code : Code) (q stop : Nat) : Prop :=
  ∀ j t, q ≤ j → j < stop → code.Jumps j t → q ≤ t

theorem clear_self (code : Code) (q : Nat) : code.Clear q q :=
  fun _ _ hle hlt => absurd hlt (Nat.not_lt.mpr hle)

theorem Clear.not_backEdge {q stop j t : Nat} (h : code.Clear q stop) (ht : t < q) (hle : q ≤ j)
    (hlt : j < stop) : ¬ code.BackEdge j t :=
  fun hedge => Nat.not_le.mpr ht (h j t hle hlt hedge.jumps)

end Code

theorem Pushes.getElem?_ne_branch {P : Instruction → Prop} {n : Nat} {pre x post code : Code}
    (h : Pushes P n x) (hcode : code = pre ++ x ++ post) {k : Nat} (hle : pre.length ≤ k)
    (hlt : k < (pre ++ x).length) (kind : BranchKind) (distance : Int16) :
    code[k]? ≠ some (.branch kind distance) := by
  intro hk
  rw [hcode, List.getElem?_append_left hlt, List.getElem?_append_right hle] at hk
  exact h.not_branch kind distance (List.mem_of_getElem? hk)

theorem Shaped.lands {P : Instruction → Prop} {sk : List Skeleton} {x : Code}
    (h : Shaped P sk x) : x.Lands := by
  intro i kind distance hi
  have hsites := h.sites.2 [] rfl
  have hlt := (List.getElem?_eq_some_iff.mp hi).1
  have hsite := hsites.at_ (List.prefix_refl _) hi (Nat.zero_le _) (by simpa using hlt)
  obtain ⟨t, -, hle, hland, -⟩ := hsite.landing hi (List.prefix_refl _)
  exact ⟨t, kind, distance, hi, hle, hland⟩

/-- Statements lead to no place before them, and so keep what is behind them clear. -/
theorem Shaped.clear {P : Instruction → Prop} {sk : List Skeleton} {pre x post code : Code}
    (h : Shaped P sk x) (hcode : code = pre ++ x ++ post) {stop : Nat}
    (hclear : code.Clear (pre ++ x).length stop) : code.Clear pre.length stop := by
  intro j t hle hlt hjump
  by_cases hj : (pre ++ x).length ≤ j
  · have := hclear j t hj hlt hjump
    simp only [List.length_append] at this
    omega
  · obtain ⟨k, rfl⟩ := Nat.exists_eq_add_of_le hle
    obtain ⟨kind, distance, hk, -⟩ := id hjump
    have hk' : x[k]? = some (.branch kind distance) := by
      rw [hcode, List.getElem?_append_left (Nat.not_le.mp hj),
        List.getElem?_append_right (Nat.le_add_right _ _), Nat.add_sub_cancel_left] at hk
      exact hk
    obtain ⟨u, hu⟩ := h.lands k kind distance hk'
    have hsame := hu.between pre post
    rw [← hcode] at hsame
    rw [hjump.unique hsame]
    exact Nat.le_add_right _ _

namespace Body

open Code

variable {b : Body} {code : Code}

structure Laid (b : Body) (code : Code) : Prop where
  toArray : b.code = code.toArray
  offsets : ∀ i ≤ code.length, b.offsets[i]? = some (code.offset i)
  places : ∀ i ≤ code.length, b.places[code.offset i]? = some i

theorem Laid.getElem? (h : b.Laid code) (i : Nat) : b.code[i]? = code[i]? := by
  rw [h.toArray]
  simp

theorem Laid.target (h : b.Laid code) {i t : Nat} (ht : code.Jumps i t) : b.target i = .ok t := by
  obtain ⟨kind, distance, hi, hle, hland⟩ := ht
  have hlt := (List.getElem?_eq_some_iff.mp hi).1
  unfold Body.target
  rw [h.getElem?, hi]
  simp only [Instruction.distance?]
  rw [h.offsets (i + 1) hlt, Option.getD_some, hland, if_neg (by omega), Int.toNat_natCast,
    h.places t hle]

structure Notes (b : Body) (code : Code) (k : Nat) : Prop where
  edges : ∀ head j, j ∈ b.backEdges.getD head [] ↔ j < k ∧ code.BackEdge j head
  sorted : ∀ head, (b.backEdges.getD head []).Pairwise (· > ·)

theorem Notes.noteBack (hl : b.Laid code) (hlands : code.Lands) {k : Nat} (h : b.Notes code k)
    {i : Instruction} (hi : code[k]? = some i) :
    ∃ e, b.noteBack k i = .ok { b with backEdges := e } ∧
      Notes { b with backEdges := e } code (k + 1) := by
  -- an instruction that closes no loop adds no edge
  have hskip (hno : ∀ head, ¬ code.BackEdge k head) : b.Notes code (k + 1) := by
    refine ⟨fun head j => ?_, h.sorted⟩
    rw [h.edges, Nat.lt_succ_iff_lt_or_eq]
    constructor
    · exact fun hj => ⟨Or.inl hj.1, hj.2⟩
    · rintro ⟨hj | rfl, hedge⟩
      · exact ⟨hj, hedge⟩
      · exact absurd hedge (hno head)
  by_cases hbranch : ∃ kind distance, i = .branch kind distance ∧ kind ≠ .ifFalse
  · obtain ⟨kind, distance, rfl, hkind⟩ := hbranch
    obtain ⟨t, ht⟩ := hlands k kind distance hi
    have hnote : b.noteBack k (.branch kind distance) =
        if t ≤ k then
          .ok { b with backEdges := b.backEdges.insert t (k :: b.backEdges.getD t []) }
        else .ok b := by
      cases kind with
      | ifFalse => exact absurd rfl hkind
      | _ => simp only [Body.noteBack, hl.target ht]
    rw [hnote]
    by_cases hle : t ≤ k
    · rw [if_pos hle]
      have hself : code.BackEdge k t := ht.backEdge hi hkind hle
      have hget (head : Nat) : (b.backEdges.insert t (k :: b.backEdges.getD t [])).getD head [] =
          if t = head then k :: b.backEdges.getD head [] else b.backEdges.getD head [] := by
        rw [Std.TreeMap.getD_insert]
        by_cases hth : t = head
        · simp [hth]
        · simp [hth]
      refine ⟨_, rfl, fun head j => ?_, fun head => ?_⟩
      · rw [hget]
        split
        · next heq =>
          subst heq
          rw [List.mem_cons, h.edges, Nat.lt_succ_iff_lt_or_eq]
          constructor
          · rintro (rfl | hj)
            · exact ⟨Or.inr rfl, hself⟩
            · exact ⟨Or.inl hj.1, hj.2⟩
          · rintro ⟨hj | rfl, hedge⟩
            · exact Or.inr ⟨hj, hedge⟩
            · exact Or.inl rfl
        · next hne =>
          rw [h.edges, Nat.lt_succ_iff_lt_or_eq]
          constructor
          · exact fun hj => ⟨Or.inl hj.1, hj.2⟩
          · rintro ⟨hj | rfl, hedge⟩
            · exact ⟨hj, hedge⟩
            · exact absurd (ht.unique hedge.jumps) hne
      · rw [hget]
        split
        · refine List.pairwise_cons.mpr ⟨fun j hj => ?_, h.sorted head⟩
          exact ((h.edges head j).mp hj).1
        · exact h.sorted head
    · rw [if_neg hle]
      refine ⟨b.backEdges, rfl, hskip fun head hedge => hle ?_⟩
      rw [ht.unique hedge.jumps]
      exact hedge.1
  · have hnote : b.noteBack k i = .ok b := by
      cases i with
      | branch kind distance =>
        cases kind with
        | ifFalse => rfl
        | _ => exact absurd ⟨_, distance, rfl, by simp⟩ hbranch
      | _ => rfl
    refine ⟨b.backEdges, hnote, hskip fun head hedge => hbranch ?_⟩
    obtain ⟨-, kind, distance, hk, hkind, -⟩ := hedge
    rw [hi] at hk
    exact ⟨kind, distance, Option.some.inj hk, hkind⟩

theorem Notes.noteAll (hlands : code.Lands) {x y : Code} (hcode : code = x ++ y)
    (hl : b.Laid code) (h : b.Notes code x.length) :
    ∃ e, b.noteAll x.length y = .ok { b with backEdges := e } ∧
      Notes { b with backEdges := e } code code.length := by
  induction y generalizing b x with
  | nil =>
    refine ⟨b.backEdges, rfl, ?_⟩
    rw [hcode, List.append_nil] at h ⊢
    exact h
  | cons i y ih =>
    have hi : code[x.length]? = some i := by simp [hcode]
    obtain ⟨e, hnote, hnotes⟩ := h.noteBack hl hlands hi
    have hl' : Laid { b with backEdges := e } code := ⟨hl.toArray, hl.offsets, hl.places⟩
    obtain ⟨e', hall, hdone⟩ := ih (b := { b with backEdges := e }) (x := x ++ [i])
      (by simp [hcode]) hl' (by simpa using hnotes)
    refine ⟨e', ?_, hdone⟩
    simp only [Body.noteAll, hnote]
    simpa using hall

def layout (l : Library) (names : SlotNames) (code : Code) : Body :=
  let (starts, stop) := Container.starts 0 (code.map fun i => [i])
  let offsets := (starts ++ [stop]).toArray
  let places := ((starts ++ [stop]).zip (List.range (code.length + 1))).foldl
    (fun m (offset, i) => m.insert offset i) {}
  { library := l, names, code := code.toArray, offsets, places, backEdges := {} }

theorem ofCode_eq (l : Library) (names : SlotNames) (code : Code) :
    ofCode l names code = (layout l names code).noteAll 0 code := rfl

/-- The bytes at which instructions start, and the end. -/
theorem starts_map (code : Code) :
    (Container.starts 0 (code.map fun i => [i])).1 ++
      [(Container.starts 0 (code.map fun i => [i])).2] =
      (List.range (code.length + 1)).map code.offset := by
  have hflat (k : Nat) : ((code.map fun i => [i]).take k).flatten = code.take k := by
    rw [← List.map_take]
    induction code.take k with
    | nil => rfl
    | cons i rest ih => simp [ih]
  have hwhole := hflat code.length
  rw [List.take_of_length_le (by simp), List.take_length] at hwhole
  rw [Container.starts_fst, Container.starts_snd, List.range_succ, List.map_append, hwhole]
  simp [hflat, offset]

theorem layout_offsets (l : Library) (names : SlotNames) (code : Code) :
    (layout l names code).offsets = ((List.range (code.length + 1)).map code.offset).toArray := by
  unfold layout
  rw [← starts_map]

theorem layout_places (l : Library) (names : SlotNames) (code : Code) :
    (layout l names code).places = (((List.range (code.length + 1)).map code.offset).zip
      (List.range (code.length + 1))).foldl (fun m x => m.insert x.1 x.2) {} := by
  unfold layout
  rw [← starts_map]

/-- The instruction that is found at a byte starts there. -/
theorem layout_placed {l : Library} {names : SlotNames} {o i : Nat}
    (h : (layout l names code).places[o]? = some i) : i ≤ code.length ∧ code.offset i = o := by
  rw [layout_places] at h
  rcases mem_of_foldl_insert (f := fun x : Nat × Nat => x.1) (g := fun x => x.2) h with
    h | ⟨⟨o, i⟩, hmem, rfl, rfl⟩
  · simp at h
  · obtain ⟨n, hn, hget⟩ := List.mem_iff_getElem.mp hmem
    simp only [List.getElem_zip, List.getElem_map, List.getElem_range, Prod.mk.injEq] at hget
    simp only [List.length_zip, List.length_map, List.length_range, Nat.min_self] at hn
    obtain ⟨rfl, rfl⟩ := hget
    exact ⟨Nat.le_of_lt_succ hn, rfl⟩

theorem layout_laid (l : Library) (names : SlotNames) (code : Code) :
    (layout l names code).Laid code := by
  refine ⟨rfl, fun i hi => ?_, fun i hi => ?_⟩
  · simp [layout_offsets, Nat.lt_succ_of_le hi]
  · have hmem : (code.offset i, i) ∈ (((List.range (code.length + 1)).map code.offset).zip
        (List.range (code.length + 1))) := by
      refine List.mem_iff_getElem.mpr ⟨i, by simp [Nat.lt_succ_of_le hi], by simp⟩
    have hsome := isSome_foldl_insert (f := fun x : Nat × Nat => x.1) (g := fun x => x.2)
      (m := ({} : Std.TreeMap Nat Nat)) (Or.inr ⟨_, hmem, rfl⟩)
    rw [← layout_places l names] at hsome
    obtain ⟨j, hj⟩ := Option.isSome_iff_exists.mp hsome
    -- one place starts at each byte
    obtain ⟨hle, hsame⟩ := layout_placed hj
    rw [hj, eq_of_offset_eq hle hi hsame]

/-- Code whose branches all lead somewhere can be laid out. -/
theorem ofCode_ok (hlands : code.Lands) (l : Library) (names : SlotNames) :
    ∃ b, ofCode l names code = .ok b ∧ b.library = l ∧ b.names = names ∧ b.Laid code ∧
      b.Notes code code.length := by
  have hlaid := layout_laid l names code
  have hnotes : (layout l names code).Notes code ([] : Code).length := by
    refine ⟨fun head j => ?_, fun head => ?_⟩ <;> simp [layout]
  obtain ⟨e, hnote, hdone⟩ := hnotes.noteAll (x := []) hlands rfl hlaid
  exact ⟨_, hnote, rfl, rfl, ⟨hlaid.toArray, hlaid.offsets, hlaid.places⟩, hdone⟩

theorem Notes.loopEnd?_eq_some (h : b.Notes code code.length) {head stop j : Nat}
    (hedge : code.BackEdge j head) (hj : j < stop)
    (hlast : ∀ k, j < k → k < stop → ¬ code.BackEdge k head) : b.loopEnd? head stop = some j := by
  have hlt : j < code.length := by
    obtain ⟨-, kind, distance, hk, -⟩ := hedge
    exact (List.getElem?_eq_some_iff.mp hk).1
  obtain ⟨later, earlier, hsplit⟩ := List.append_of_mem ((h.edges head j).mpr ⟨hlt, hedge⟩)
  have hsorted := h.sorted head
  rw [hsplit] at hsorted
  unfold loopEnd?
  rw [List.find?_eq_some_iff_append]
  refine ⟨by simp [hedge.1, hj], later, earlier, hsplit, fun k hk => ?_⟩
  have hgt : k > j := (List.pairwise_append.mp hsorted).2.2 k hk j List.mem_cons_self
  have hk : code.BackEdge k head := by
    refine ((h.edges head k).mp ?_).2
    rw [hsplit]
    exact List.mem_append_left _ hk
  simp only [Bool.not_eq_true', Bool.and_eq_false_iff, decide_eq_false_iff_not]
  exact Or.inr fun hstop => hlast k hgt hstop hk

theorem Notes.loopEnd?_eq_none (h : b.Notes code code.length) {head stop : Nat}
    (hno : ∀ k, head ≤ k → k < stop → ¬ code.BackEdge k head) : b.loopEnd? head stop = none := by
  unfold loopEnd?
  rw [List.find?_eq_none]
  intro k hk
  have hedge := ((h.edges head k).mp hk).2
  simp only [Bool.and_eq_true, decide_eq_true_eq]
  exact fun hrange => hno k hrange.1 hrange.2 hedge

/-- A loop is the widest one at its head when nothing behind it leads back. -/
theorem Notes.loopEnd?_of_clear (h : b.Notes code code.length) {head stop j : Nat}
    (hedge : code.BackEdge j head) (hj : j < stop) (hclear : code.Clear (j + 1) stop) :
    b.loopEnd? head stop = some j :=
  h.loopEnd?_eq_some hedge hj fun _ hjk hk =>
    hclear.not_backEdge (Nat.lt_succ_of_le hedge.1) hjk hk

/-- No loop starts in straight code that is followed by an instruction which closes none. -/
theorem Notes.loopEnd?_straight {P : Instruction → Prop} (h : b.Notes code code.length) {n : Nat}
    {pre x post : Code} {i : Instruction} (hx : Pushes P n x)
    (hcode : code = pre ++ x ++ i :: post)
    (hi : ∀ kind distance, i = .branch kind distance → kind = .ifFalse) {head stop : Nat}
    (hfrom : pre.length ≤ head) (hto : head ≤ (pre ++ x).length)
    (hclear : code.Clear ((pre ++ x).length + 1) stop) : b.loopEnd? head stop = none := by
  refine h.loopEnd?_eq_none fun k hle hlt hedge => ?_
  obtain ⟨-, kind, distance, hk, hkind, -⟩ := id hedge
  rcases Nat.lt_trichotomy k (pre ++ x).length with hbefore | rfl | hafter
  · exact hx.getElem?_ne_branch hcode (Nat.le_trans hfrom hle) hbefore kind distance hk
  · rw [hcode, List.getElem?_append_right (Nat.le_refl _), Nat.sub_self] at hk
    exact hkind (hi kind distance (Option.some.inj hk))
  · exact hclear.not_backEdge (Nat.lt_succ_of_le hto) hafter hlt hedge

theorem Notes.loopEnd?_last {P : Instruction → Prop} (h : b.Notes code code.length) {n : Nat}
    {pre x post : Code} (hx : Pushes P n x) (hcode : code = pre ++ x ++ post) {head : Nat}
    (hfrom : pre.length ≤ head) : b.loopEnd? head (pre ++ x).length = none := by
  refine h.loopEnd?_eq_none fun k hle hlt hedge => ?_
  obtain ⟨-, kind, distance, hk, -⟩ := hedge
  exact hx.getElem?_ne_branch hcode (Nat.le_trans hfrom hle) hlt kind distance hk

end Body

end Lss
