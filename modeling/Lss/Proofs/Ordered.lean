import Mathlib.Data.List.Nodup
import Lss.Proofs.Registration

/-!
# Order of classes, in one go or in two

Classes that are put in order after others that already have one get the same places as if all had
been put in order at once: the way along the bases of a new class ends where it comes to an old one.
-/
namespace Lss

namespace ClassOrder

def places (classes : List ClassDecl) : Std.TreeMap String Nat :=
  (classes.zip (List.range classes.length)).foldl (fun m (c, i) => m.insert c.name.text i) {}

theorem getElem?_places {classes : List ClassDecl} (h : (classes.map (·.name.text)).Nodup)
    {name : String} {i : Nat} :
    (places classes)[name]? = some i ↔ ∃ c, classes[i]? = some c ∧ c.name.text = name := by
  have hmem (c : ClassDecl) (j : Nat) :
      (c, j) ∈ classes.zip (List.range classes.length) ↔ classes[j]? = some c := by
    rw [List.range_eq_range', ← List.zipIdx_eq_zip_range', List.mem_zipIdx_iff_getElem?]
  have hfound (name : String) (i : Nat) (hi : (places classes)[name]? = some i) :
      ∃ c, classes[i]? = some c ∧ c.name.text = name := by
    rcases mem_of_foldl_insert (f := fun x : ClassDecl × Nat => x.1.name.text)
      (g := fun x => x.2) hi with hi | ⟨⟨c, _⟩, hx, hname, rfl⟩
    · simp at hi
    · exact ⟨c, (hmem c _).mp hx, hname⟩
  refine ⟨hfound name i, ?_⟩
  rintro ⟨c, hc, rfl⟩
  have hsome : (places classes)[c.name.text]?.isSome :=
    isSome_foldl_insert (f := fun x : ClassDecl × Nat => x.1.name.text) (g := fun x => x.2)
      (Or.inr ⟨(c, i), (hmem c i).mpr hc, rfl⟩)
  obtain ⟨j, hj⟩ := Option.isSome_iff_exists.mp hsome
  obtain ⟨c', hc', hname⟩ := hfound _ j hj
  have hlt : j < (classes.map (·.name.text)).length := by
    rw [List.length_map]
    exact (List.getElem?_eq_some_iff.mp hc').1
  have hij : j = i := by
    refine (List.getElem?_inj hlt h).mp ?_
    rw [List.getElem?_map, List.getElem?_map, hc', hc, Option.map_some, Option.map_some, hname]
  rw [hj, hij]

/-- Of the classes `as` and `bs`, all with names of their own, `c` has none and `d` has the
first. -/
structure Split (as bs : List ClassDecl) (c d : Container) : Prop where
  nodup : ((as ++ bs).map (·.name.text)).Nodup
  neither : ∀ name, c.findClass? name = none
  first : ∀ name, (d.findClass? name).isSome ↔ ∃ a ∈ as, a.name.text = name

section

variable {as bs : List ClassDecl} {c d : Container} {name : String} {i : Nat}

theorem Split.nodup_left (h : Split as bs c d) : (as.map (·.name.text)).Nodup := by
  have := h.nodup
  rw [List.map_append] at this
  exact this.of_append_left

theorem Split.nodup_right (h : Split as bs c d) : (bs.map (·.name.text)).Nodup := by
  have := h.nodup
  rw [List.map_append] at this
  exact this.of_append_right

theorem Split.places_left (h : Split as bs c d) (hi : (places as)[name]? = some i) :
    (places (as ++ bs))[name]? = some i := by
  obtain ⟨a, ha, hname⟩ := (getElem?_places h.nodup_left).mp hi
  refine (getElem?_places h.nodup).mpr ⟨a, ?_, hname⟩
  rw [List.getElem?_append_left (List.getElem?_eq_some_iff.mp ha).1]
  exact ha

theorem Split.places_right (h : Split as bs c d) (hi : (places bs)[name]? = some i) :
    (places (as ++ bs))[name]? = some (as.length + i) := by
  obtain ⟨b, hb, hname⟩ := (getElem?_places h.nodup_right).mp hi
  refine (getElem?_places h.nodup).mpr ⟨b, ?_, hname⟩
  rw [List.getElem?_append_right (Nat.le_add_right _ _), Nat.add_sub_cancel_left]
  exact hb

theorem Split.places_old (h : Split as bs c d) (hold : (d.findClass? name).isSome) :
    ∃ j < as.length, (places (as ++ bs))[name]? = some j := by
  obtain ⟨a, ha, hname⟩ := (h.first name).mp hold
  obtain ⟨j, hj, rfl⟩ := List.mem_iff_getElem.mp ha
  refine ⟨j, hj, (getElem?_places h.nodup).mpr ⟨as[j], ?_, hname⟩⟩
  rw [List.getElem?_append_left hj, List.getElem?_eq_getElem hj]

theorem Split.places_absent (h : Split as bs c d) (hnew : (places bs)[name]? = none)
    (hold : ¬ (d.findClass? name).isSome) : (places (as ++ bs))[name]? = none := by
  rw [Option.eq_none_iff_forall_ne_some]
  intro j hj
  obtain ⟨x, hx, hname⟩ := (getElem?_places h.nodup).mp hj
  rcases List.mem_append.mp (List.mem_of_getElem? hx) with hmem | hmem
  · exact hold ((h.first name).mpr ⟨x, hmem, hname⟩)
  · obtain ⟨k, hk⟩ := List.mem_iff_getElem?.mp hmem
    have := (getElem?_places h.nodup_right).mpr ⟨x, hk, hname⟩
    rw [hnew] at this
    cases this

/-- One step along the bases, from a class that waits. -/
theorem walk_of_mem {classes : Array ClassDecl} {byName : Std.TreeMap String Nat}
    {done : Progress} {path waiting : List Nat} (h : i ∈ waiting) :
    walk classes byName c done path waiting i =
      match classes[i]?.bind (·.base) with
      | none => (i :: path, waiting.erase i, .sound)
      | some base =>
        match byName[base.text]? with
        | some j => walk classes byName c done (i :: path) (waiting.erase i) j
        | none =>
          if (c.findClass? base.text).isSome then (i :: path, waiting.erase i, .sound)
          else
            (i :: path, waiting.erase i,
              .broken (some (.undefinedClass base.text base.span))) := by
  rw [walk]
  exact dif_pos h

/-! The first classes, with more behind them. -/

def Progress.awaiting (done : Progress) (more : List Nat) : Progress :=
  { done with waiting := done.waiting ++ more }

theorem walk_left (h : Split as bs c d) {done : Progress} {more : List Nat}
    (hmore : ∀ x ∈ more, as.length ≤ x) {path waiting path' waiting' : List Nat}
    (hi : i < as.length)
    (hwalk : walk as.toArray (places as) c done path waiting i = (path', waiting', .sound)) :
    walk (as ++ bs).toArray (places (as ++ bs)) c (done.awaiting more) path (waiting ++ more) i =
      (path', waiting' ++ more, .sound) := by
  have hclass (i : Nat) (hi : i < as.length) : (as ++ bs).toArray[i]? = as.toArray[i]? := by
    rw [List.getElem?_toArray, List.getElem?_toArray, List.getElem?_append_left hi]
  fun_induction walk as.toArray (places as) c done path waiting i with
  | case1 path waiting i hmem _ hbase =>
    cases hwalk
    rw [walk_of_mem (List.mem_append_left more hmem), hclass i hi,
      List.erase_append_left more hmem]
    simp only [hbase]
  | case2 path waiting i hmem _ base hbase j hj ih =>
    obtain ⟨a, ha, -⟩ := (getElem?_places h.nodup_left).mp hj
    rw [walk_of_mem (List.mem_append_left more hmem), hclass i hi,
      List.erase_append_left more hmem]
    simp only [hbase, h.places_left hj]
    exact ih (List.getElem?_eq_some_iff.mp ha).1 hwalk
  | case3 path waiting i hmem _ base hbase _ hex =>
    rw [h.neither] at hex
    cases hex
  | case4 => cases hwalk
  | case5 path waiting i hmem hord =>
    have hnot : i ∉ waiting ++ more := by
      intro hin
      rcases List.mem_append.mp hin with hin | hin
      · exact hmem hin
      · exact absurd (hmore i hin) (Nat.not_le.mpr hi)
    cases hwalk
    rw [walk, dif_neg hnot]
    exact if_pos hord
  | case6 => cases hwalk
  | case7 => cases hwalk

theorem errors_visit {classes : Array ClassDecl} {byName : Std.TreeMap String Nat}
    {done : Progress} (h : (visit classes byName c done i).errors = []) : done.errors = [] := by
  unfold visit at h
  split at h
  · exact h
  · exact (List.append_eq_nil_iff.mp h).2

/-- While nothing is wrong, what is behind does not matter. -/
theorem visit_left (h : Split as bs c d) {done : Progress} {more : List Nat}
    (hmore : ∀ x ∈ more, as.length ≤ x) (hi : i < as.length) (hbroken : done.broken = [])
    (herr : (visit as.toArray (places as) c done i).errors = []) :
    (visit as.toArray (places as) c done i).broken = [] ∧
      visit (as ++ bs).toArray (places (as ++ bs)) c (done.awaiting more) i =
        (visit as.toArray (places as) c done i).awaiting more := by
  unfold visit at herr ⊢
  generalize hwalk : walk as.toArray (places as) c done [] done.waiting i = r at herr ⊢
  obtain ⟨path, waiting, ending⟩ := r
  cases ending with
  | sound =>
    have := walk_left h hmore hi hwalk
    refine ⟨hbroken, ?_⟩
    simp only [Progress.awaiting] at this ⊢
    rw [this]
  | broken error =>
    have hnames (b : String) (j : Nat) (hj : (places as)[b]? = some j) : j < as.toArray.size := by
      obtain ⟨a, ha, -⟩ := (getElem?_places h.nodup_left).mp hj
      exact (List.getElem?_eq_some_iff.mp ha).1
    have hsome := walk_broken hnames (by simpa using hi) hbroken hwalk
    cases error with
    | none => exact absurd rfl hsome
    | some e => cases herr

/-- A way takes classes from those that wait, its first one among them. -/
theorem walk_waiting {classes : Array ClassDecl} {byName : Std.TreeMap String Nat}
    {done : Progress} {path waiting path' waiting' : List Nat} {ending : Ending}
    (h : walk classes byName c done path waiting i = (path', waiting', ending)) :
    waiting'.Sublist waiting ∧ (waiting.Nodup → i ∉ waiting') ∧
      (path' ++ waiting').Perm (path ++ waiting) := by
  have hone {path waiting : List Nat} {i : Nat} (hmem : i ∈ waiting) :
      (i :: path ++ waiting.erase i).Perm (path ++ waiting) :=
    List.perm_middle.symm.trans ((List.perm_cons_erase hmem).symm.append_left path)
  fun_induction walk classes byName c done path waiting i with
  | case1 path waiting i hmem =>
    cases h
    exact ⟨List.erase_sublist, fun hnodup => hnodup.not_mem_erase, hone hmem⟩
  | case2 path waiting i hmem _ base hbase j hj ih =>
    obtain ⟨hsub, -, hperm⟩ := ih h
    refine ⟨hsub.trans List.erase_sublist, fun hnodup hin => ?_, hperm.trans (hone hmem)⟩
    exact hnodup.not_mem_erase (hsub.subset hin)
  | case3 path waiting i hmem =>
    cases h
    exact ⟨List.erase_sublist, fun hnodup => hnodup.not_mem_erase, hone hmem⟩
  | case4 path waiting i hmem =>
    cases h
    exact ⟨List.erase_sublist, fun hnodup => hnodup.not_mem_erase, hone hmem⟩
  | case5 path waiting i hmem =>
    cases h
    exact ⟨.refl _, fun _ => hmem, .refl _⟩
  | case6 path waiting i hmem =>
    cases h
    exact ⟨.refl _, fun _ => hmem, .refl _⟩
  | case7 path waiting i hmem =>
    cases h
    exact ⟨.refl _, fun _ => hmem, .refl _⟩

structure Progress.Past (n k : Nat) (done : Progress) : Prop where
  perm : (done.waiting ++ done.ordered ++ done.broken).Perm (List.range n)
  waiting : ∀ x ∈ done.waiting, k ≤ x

theorem Progress.Past.visit {classes : Array ClassDecl} {byName : Std.TreeMap String Nat}
    {done : Progress} {n k : Nat} (h : done.Past n k) :
    (visit classes byName c done k).Past n (k + 1) := by
  have hnodup : done.waiting.Nodup :=
    (h.perm.nodup_iff.mpr List.nodup_range).of_append_left.of_append_left
  unfold ClassOrder.visit
  generalize hwalk : walk classes byName c done [] done.waiting k = r
  obtain ⟨path, waiting, ending⟩ := r
  obtain ⟨hsub, hself, hperm⟩ := walk_waiting hwalk
  have hwaiting (x : Nat) (hx : x ∈ waiting) : k + 1 ≤ x := by
    have hle := h.waiting x (hsub.subset hx)
    have hne : x ≠ k := fun heq => hself hnodup (heq ▸ hx)
    omega
  -- what leaves the waiting ones goes to one of the others
  have hcount (x : Nat) : List.count x path + List.count x waiting = List.count x done.waiting := by
    have := hperm.count_eq x
    rwa [List.count_append] at this
  cases ending with
  | sound =>
    refine ⟨.trans (List.perm_iff_count.mpr fun x => ?_) h.perm, hwaiting⟩
    simp only [List.count_append, List.count_reverse, ← hcount]
    omega
  | broken error =>
    refine ⟨.trans (List.perm_iff_count.mpr fun x => ?_) h.perm, hwaiting⟩
    simp only [List.count_append, ← hcount]
    omega

theorem Progress.Past.waiting_eq {done : Progress} {n : Nat} (h : done.Past n n) :
    done.waiting = [] := by
  rw [List.eq_nil_iff_forall_not_mem]
  intro x hx
  have hle := h.waiting x hx
  have hlt := List.mem_range.mp (h.perm.subset
    (List.mem_append_left _ (List.mem_append_left _ hx)))
  omega

theorem foldl_visit_past (classes : Array ClassDecl) (byName : Std.TreeMap String Nat)
    (c : Container) (n k : Nat) :
    ((List.range k).foldl (visit classes byName c) { waiting := List.range n }).Past n k := by
  induction k with
  | zero => exact ⟨by simp, fun x _ => Nat.zero_le x⟩
  | succ k ih =>
    rw [List.range_succ, List.foldl_append]
    exact ih.visit

/-- What the first classes come to, whatever else waits. -/
theorem foldl_visit_left (h : Split as bs c d) (more : List Nat)
    (hmore : ∀ x ∈ more, as.length ≤ x) {k : Nat} (hk : k ≤ as.length) {done : Progress}
    (hdone : (List.range k).foldl (visit as.toArray (places as) c)
      { waiting := List.range as.length } = done) (herr : done.errors = []) :
    done.broken = [] ∧
      (List.range k).foldl (visit (as ++ bs).toArray (places (as ++ bs)) c)
        { waiting := List.range as.length ++ more } = done.awaiting more := by
  induction k generalizing done with
  | zero =>
    cases hdone
    exact ⟨rfl, rfl⟩
  | succ k ih =>
    rw [List.range_succ, List.foldl_append] at hdone
    cases hdone
    obtain ⟨hbroken, hsame⟩ := ih (Nat.le_of_succ_le hk) rfl (errors_visit herr)
    obtain ⟨hbroken', hvisit⟩ := visit_left h hmore hk hbroken herr
    refine ⟨hbroken', ?_⟩
    rw [List.range_succ, List.foldl_append, hsame]
    exact hvisit

/-! The classes behind them. -/

def Progress.behind (n : Nat) (front : List Nat) (done : Progress) : Progress where
  waiting := done.waiting.map (n + ·)
  ordered := done.ordered.map (n + ·) ++ front
  broken := done.broken.map (n + ·)
  errors := done.errors

theorem walk_right (h : Split as bs c d) {front : List Nat}
    (hfront : ∀ x, x ∈ front ↔ x < as.length) (done : Progress) (path waiting : List Nat)
    (i : Nat) :
    walk (as ++ bs).toArray (places (as ++ bs)) c (done.behind as.length front)
        (path.map (as.length + ·)) (waiting.map (as.length + ·)) (as.length + i) =
      ((walk bs.toArray (places bs) d done path waiting i).1.map (as.length + ·),
        (walk bs.toArray (places bs) d done path waiting i).2.1.map (as.length + ·),
        (walk bs.toArray (places bs) d done path waiting i).2.2) := by
  have hinj : Function.Injective (as.length + ·) := fun x y hxy => Nat.add_left_cancel hxy
  have hclass (i : Nat) : (as ++ bs).toArray[as.length + i]? = bs.toArray[i]? := by
    rw [List.getElem?_toArray, List.getElem?_toArray,
      List.getElem?_append_right (Nat.le_add_right _ _), Nat.add_sub_cancel_left]
  have hwaits {waiting : List Nat} {i : Nat} (hmem : i ∈ waiting) :
      as.length + i ∈ waiting.map (as.length + ·) := List.mem_map_of_mem hmem
  have hgone {waiting : List Nat} {i : Nat} (hmem : i ∉ waiting) :
      as.length + i ∉ waiting.map (as.length + ·) :=
    fun hin => hmem ((List.mem_map_of_injective hinj).mp hin)
  have hordered (i : Nat) : (done.behind as.length front).ordered.contains (as.length + i) =
      done.ordered.contains i := by
    rw [Bool.eq_iff_iff, List.contains_iff_mem, List.contains_iff_mem]
    show as.length + i ∈ done.ordered.map (as.length + ·) ++ front ↔ _
    rw [List.mem_append, List.mem_map_of_injective hinj, hfront, or_iff_left]
    omega
  have hbroken (i : Nat) : (done.behind as.length front).broken.contains (as.length + i) =
      done.broken.contains i := by
    rw [Bool.eq_iff_iff, List.contains_iff_mem, List.contains_iff_mem]
    exact List.mem_map_of_injective hinj
  fun_induction walk bs.toArray (places bs) d done path waiting i with
  | case1 path waiting i hmem _ hbase =>
    rw [walk_of_mem (hwaits hmem), hclass, ← List.map_erase hinj]
    simp only [hbase]
    rfl
  | case2 path waiting i hmem _ base hbase j hj ih =>
    rw [walk_of_mem (hwaits hmem), hclass, ← List.map_erase hinj]
    simp only [hbase, h.places_right hj]
    exact ih
  | case3 path waiting i hmem _ base hbase hnew hex =>
    obtain ⟨j, hlt, hj⟩ := h.places_old hex
    rw [walk_of_mem (hwaits hmem), hclass, ← List.map_erase hinj]
    simp only [hbase, hj]
    -- the way is at its end, since the old class is in order
    have hnot : j ∉ (waiting.erase i).map (as.length + ·) := by
      intro hin
      obtain ⟨x, -, rfl⟩ := List.mem_map.mp hin
      omega
    rw [walk, dif_neg hnot]
    refine if_pos (List.contains_iff_mem.mpr (List.mem_append_right _ ?_))
    exact (hfront j).mpr hlt
  | case4 path waiting i hmem _ base hbase hnew hex =>
    rw [walk_of_mem (hwaits hmem), hclass, ← List.map_erase hinj]
    simp only [hbase, h.places_absent hnew hex, h.neither]
    rfl
  | case5 path waiting i hmem hord =>
    rw [walk, dif_neg (hgone hmem), hordered, if_pos hord]
  | case6 path waiting i hmem hord hbad =>
    rw [walk, dif_neg (hgone hmem), hordered, if_neg hord, hbroken, if_pos hbad]
  | case7 path waiting i hmem hord hbad =>
    rw [walk, dif_neg (hgone hmem), hordered, if_neg hord, hbroken, if_neg hbad, hclass]

theorem visit_right (h : Split as bs c d) {front : List Nat}
    (hfront : ∀ x, x ∈ front ↔ x < as.length) (done : Progress) (i : Nat) :
    visit (as ++ bs).toArray (places (as ++ bs)) c (done.behind as.length front) (as.length + i) =
      (visit bs.toArray (places bs) d done i).behind as.length front := by
  have hwalk := walk_right h hfront done [] done.waiting i
  unfold visit
  generalize walk bs.toArray (places bs) d done [] done.waiting i = r at hwalk
  obtain ⟨path, waiting, ending⟩ := r
  rw [List.map_nil] at hwalk
  have hwaiting : (done.behind as.length front).waiting = done.waiting.map (as.length + ·) := rfl
  rw [hwaiting, hwalk]
  cases ending with
  | sound => simp [Progress.behind]
  | broken error => simp [Progress.behind]

theorem foldl_visit_right (h : Split as bs c d) {front : List Nat}
    (hfront : ∀ x, x ∈ front ↔ x < as.length) (is : List Nat) (done : Progress) :
    (is.map (as.length + ·)).foldl (visit (as ++ bs).toArray (places (as ++ bs)) c)
        (done.behind as.length front) =
      (is.foldl (visit bs.toArray (places bs) d) done).behind as.length front := by
  induction is generalizing done with
  | nil => rfl
  | cons i is ih =>
    rw [List.map_cons, List.foldl_cons, List.foldl_cons, visit_right h hfront, ih]

end

end ClassOrder

open ClassOrder

theorem orderClasses_eq (classes : List ClassDecl) (c : Container) :
    orderClasses classes c =
      (((List.range classes.length).foldl (visit classes.toArray (places classes) c)
          { waiting := List.range classes.length }).ordered.reverse,
        ((List.range classes.length).foldl (visit classes.toArray (places classes) c)
          { waiting := List.range classes.length }).errors.reverse) := rfl

/-- With errors or without, no class is in the order twice. -/
theorem orderClasses_nodup (classes : List ClassDecl) (c : Container) :
    (orderClasses classes c).1.Nodup := by
  rw [orderClasses_eq, List.nodup_reverse]
  have hpast := foldl_visit_past classes.toArray (places classes) c classes.length classes.length
  exact (hpast.perm.nodup_iff.mpr List.nodup_range).of_append_left.of_append_right

/-- Without errors, the order has each class once. -/
theorem orderClasses_perm {classes : List ClassDecl} {c : Container}
    (h : (orderClasses classes c).2 = []) :
    (orderClasses classes c).1.Perm (List.range classes.length) := by
  have hall := fun i (hi : i < classes.length) => mem_orderClasses h hi
  rw [orderClasses_eq] at hall ⊢
  have hpast := foldl_visit_past classes.toArray (places classes) c classes.length classes.length
  generalize (List.range classes.length).foldl (visit classes.toArray (places classes) c)
    { waiting := List.range classes.length } = done at hall hpast ⊢
  have hperm := hpast.perm
  rw [hpast.waiting_eq, List.nil_append] at hperm
  have hbroken : done.broken = [] := by
    rw [List.eq_nil_iff_forall_not_mem]
    intro x hx
    have hlt := List.mem_range.mp (hperm.subset (List.mem_append_right _ hx))
    have hdisjoint := List.disjoint_of_nodup_append (hperm.nodup_iff.mpr List.nodup_range)
    exact hdisjoint (List.mem_reverse.mp (hall x hlt)) hx
  rw [hbroken, List.append_nil] at hperm
  exact (List.reverse_perm _).trans hperm

theorem ordered_perm {classes : List ClassDecl} {c : Container}
    (h : (orderClasses classes c).2 = []) :
    ((orderClasses classes c).1.filterMap (classes.toArray[·]?)).Perm classes := by
  have hmap : (List.range classes.length).map (classes.toArray[·]?) = classes.map some :=
    List.ext_getElem (by simp) (by simp)
  refine ((orderClasses_perm h).filterMap _).trans (List.Perm.of_eq ?_)
  calc (List.range classes.length).filterMap (classes.toArray[·]?)
      = ((List.range classes.length).map (classes.toArray[·]?)).filterMap id := by
        rw [List.filterMap_map]
        rfl
    _ = classes := by rw [hmap, List.filterMap_map]; simp

/-- Old classes first and new ones behind them, both in their own order, is the order of all; and
what is wrong with all of them is what is wrong with the new ones. -/
theorem orderClasses_append {as bs : List ClassDecl} {c d : Container} (h : Split as bs c d)
    (has : (orderClasses as c).2 = []) :
    (orderClasses (as ++ bs) c).2 = (orderClasses bs d).2 ∧
      (orderClasses (as ++ bs) c).1.filterMap ((as ++ bs).toArray[·]?) =
        (orderClasses as c).1.filterMap (as.toArray[·]?) ++
          (orderClasses bs d).1.filterMap (bs.toArray[·]?) := by
  have hperm := orderClasses_perm has
  rw [orderClasses_eq as c] at has hperm ⊢
  rw [orderClasses_eq (as ++ bs) c, orderClasses_eq bs d]
  generalize hdone : (List.range as.length).foldl (visit as.toArray (places as) c)
    { waiting := List.range as.length } = done at has hperm ⊢
  have hpast := foldl_visit_past as.toArray (places as) c as.length as.length
  rw [hdone] at hpast
  obtain ⟨hbroken, hleft⟩ := foldl_visit_left h
    ((List.range bs.length).map (as.length + ·)) (by simp) (Nat.le_refl _) hdone
    (List.reverse_eq_nil_iff.mp has)
  have hwaiting := hpast.waiting_eq
  have hfront (x : Nat) : x ∈ done.ordered ↔ x < as.length := by
    rw [← List.mem_reverse, hperm.mem_iff, List.mem_range]
  have hstart : done.awaiting ((List.range bs.length).map (as.length + ·)) =
      Progress.behind as.length done.ordered { waiting := List.range bs.length } := by
    obtain ⟨waiting, ordered, broken, errors⟩ := done
    cases hwaiting
    cases hbroken
    cases List.reverse_eq_nil_iff.mp has
    rfl
  have hjoint : (List.range (as ++ bs).length).foldl
      (visit (as ++ bs).toArray (places (as ++ bs)) c) { waiting := List.range (as ++ bs).length } =
      Progress.behind as.length done.ordered
        ((List.range bs.length).foldl (visit bs.toArray (places bs) d)
          { waiting := List.range bs.length }) := by
    rw [List.length_append, List.range_add, List.foldl_append, hleft, hstart,
      foldl_visit_right h hfront]
  rw [hjoint]
  refine ⟨rfl, ?_⟩
  rw [Progress.behind, List.reverse_append, List.filterMap_append, ← List.map_reverse,
    List.filterMap_map]
  congr 1
  · refine List.filterMap_congr fun i hi => ?_
    have hlt := (hfront i).mp (List.mem_reverse.mp hi)
    rw [List.getElem?_toArray, List.getElem?_toArray, List.getElem?_append_left hlt]
  · refine List.filterMap_congr fun i _ => ?_
    rw [Function.comp_apply, List.getElem?_toArray, List.getElem?_toArray,
      List.getElem?_append_right (Nat.le_add_right _ _), Nat.add_sub_cancel_left]

end Lss
