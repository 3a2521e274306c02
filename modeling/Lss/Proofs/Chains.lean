import Mathlib.Data.List.Chain
import Mathlib.Logic.Relation
import Mathlib.Data.List.Perm.Basic
import Lss.Proofs.Ordered

/-!
# Which classes are put in order, and what is wrong with the others

From a class there is one way along the bases. It ends at a class that needs no other of the list,
or at a base that nobody knows, or it runs into a cycle. Classes of the first kind are put in order,
each behind its base; for the others there is one error for each base that nobody knows and one for
each cycle.
-/
namespace Lss

namespace ClassOrder

open Relation

def Builds (classes : List ClassDecl) (i j : Nat) : Prop :=
  ∃ c b d, classes[i]? = some c ∧ c.base = some b ∧ classes[j]? = some d ∧ d.name.text = b.text

def Rests (classes : List ClassDecl) (existing : Container) (i : Nat) : Prop :=
  ∃ c, classes[i]? = some c ∧ ∀ b ∈ c.base,
    (∀ d ∈ classes, d.name.text ≠ b.text) ∧ (existing.findClass? b.text).isSome

/-- What is wrong with a class that names a base which neither the list nor the container has. -/
def strayBase? (classes : List ClassDecl) (existing : Container) (i : Nat) : Option CompileError :=
  (classes[i]?.bind (·.base)).bind fun b =>
    if classes.any (·.name.text == b.text) || (existing.findClass? b.text).isSome then none
    else some (.undefinedClass b.text b.span)

def cycleError? (classes : List ClassDecl) (i : Nat) : Option CompileError :=
  classes[i]?.map fun c => .inheritanceCycle c.name.text c.name.span

/-- The way from class `i` along the bases ends well, and comes to no class twice. -/
structure Way (classes : List ClassDecl) (existing : Container) (i : Nat) (way : List Nat) :
    Prop where
  first : way.head? = some i
  linked : way.IsChain (Builds classes)
  nodup : way.Nodup
  rests : ∀ j ∈ way.getLast?, Rests classes existing j

/-- An order of just the classes whose bases are all there, bases first; an error for each class
that names an unknown base, and one for each cycle. -/
structure Complete (classes : List ClassDecl) (existing : Container) (order : List Nat)
    (errors : List CompileError) : Prop where
  nodup : order.Nodup
  mem_iff : ∀ i, i ∈ order ↔ ∃ way, Way classes existing i way
  before : ∀ i ∈ order, ∀ j, Builds classes i j → order.idxOf j < order.idxOf i
  exact : ∃ cyclic : List Nat, cyclic.Nodup ∧
    (∀ h ∈ cyclic, TransGen (Builds classes) h h) ∧
    (∀ i, TransGen (Builds classes) i i → ∃! h, h ∈ cyclic ∧ TransGen (Builds classes) i h) ∧
    errors.Perm ((List.range classes.length).filterMap (strayBase? classes existing) ++
      cyclic.filterMap (cycleError? classes))
  all : errors = [] ↔ ∀ i < classes.length, i ∈ order

section

variable {classes : List ClassDecl} {existing : Container} {i j k : Nat}

/-! One step along the bases. -/

theorem Builds.lt_right (h : Builds classes i j) : j < classes.length := by
  obtain ⟨_, _, _, -, -, hd, -⟩ := h
  exact (List.getElem?_eq_some_iff.mp hd).1

theorem Builds.unique (hnodup : (classes.map (·.name.text)).Nodup) (h : Builds classes i j)
    (h' : Builds classes i k) : j = k := by
  obtain ⟨c, b, d, hc, hb, hd, hname⟩ := h
  obtain ⟨c', b', d', hc', hb', hd', hname'⟩ := h'
  cases hc.symm.trans hc'
  cases hb.symm.trans hb'
  have hj := (getElem?_places hnodup).mpr ⟨d, hd, hname⟩
  have hk := (getElem?_places hnodup).mpr ⟨d', hd', hname'⟩
  exact Option.some.inj (hj.symm.trans hk)

theorem Rests.not_builds (h : Rests classes existing i) : ¬ Builds classes i j := by
  rintro ⟨c, b, d, hc, hb, hd, hname⟩
  obtain ⟨c', hc', hall⟩ := h
  cases hc.symm.trans hc'
  exact (hall b hb).1 d (List.mem_of_getElem? hd) hname

theorem Builds.strayBase?_eq_none (h : Builds classes i j) :
    strayBase? classes existing i = none := by
  obtain ⟨c, b, d, hc, hb, hd, hname⟩ := h
  have hany : classes.any (·.name.text == b.text) :=
    List.any_eq_true.mpr ⟨d, List.mem_of_getElem? hd, beq_iff_eq.mpr hname⟩
  rw [strayBase?, hc, Option.bind_some, hb, Option.bind_some, hany, Bool.true_or, if_pos rfl]

theorem Rests.strayBase?_eq_none (h : Rests classes existing i) :
    strayBase? classes existing i = none := by
  obtain ⟨c, hc, hall⟩ := h
  cases hb : c.base with
  | none => simp [strayBase?, hc, hb]
  | some b => simp [strayBase?, hc, hb, (hall b hb).2]

theorem rests_of_base_none (hi : i < classes.length)
    (hbase : classes.toArray[i]?.bind (·.base) = none) : Rests classes existing i := by
  rw [List.getElem?_toArray, List.getElem?_eq_getElem hi, Option.bind_some] at hbase
  refine ⟨classes[i], List.getElem?_eq_getElem hi, fun b hb => ?_⟩
  rw [hbase] at hb
  cases hb

section

variable {base : Token} (hnodup : (classes.map (·.name.text)).Nodup)
  (hbase : classes.toArray[i]?.bind (·.base) = some base)

include hnodup hbase

theorem builds_of_places (hj : (places classes)[base.text]? = some j) : Builds classes i j := by
  obtain ⟨c, hc, hb⟩ := Option.bind_eq_some_iff.mp hbase
  obtain ⟨d, hd, hname⟩ := (getElem?_places hnodup).mp hj
  exact ⟨c, base, d, by simpa using hc, hb, hd, hname⟩

omit hbase in
theorem unknown_of_places (hnone : (places classes)[base.text]? = none) :
    ∀ d ∈ classes, d.name.text ≠ base.text := by
  intro d hd hname
  obtain ⟨k, hk⟩ := List.mem_iff_getElem?.mp hd
  rw [(getElem?_places hnodup).mpr ⟨d, hk, hname⟩] at hnone
  cases hnone

theorem rests_of_places (hnone : (places classes)[base.text]? = none)
    (hold : (existing.findClass? base.text).isSome) : Rests classes existing i := by
  have hunknown := unknown_of_places hnodup hnone
  obtain ⟨c, hc, hb⟩ := Option.bind_eq_some_iff.mp hbase
  refine ⟨c, by simpa using hc, fun b hb' => ?_⟩
  cases hb.symm.trans hb'
  exact ⟨hunknown, hold⟩

theorem strayBase?_of_places (hnone : (places classes)[base.text]? = none)
    (hnew : ¬ (existing.findClass? base.text).isSome) :
    strayBase? classes existing i = some (.undefinedClass base.text base.span) := by
  have hunknown := unknown_of_places hnodup hnone
  rw [List.getElem?_toArray] at hbase
  have hany : classes.any (·.name.text == base.text) = false := by
    rw [List.any_eq_false]
    intro d hd
    simpa using hunknown d hd
  rw [strayBase?, hbase, Option.bind_some, hany, Bool.false_or, if_neg hnew]

end

/-! Ways that end, and ways around a cycle. -/

inductive Grounded (classes : List ClassDecl) (existing : Container) : Nat → Prop
  | rests {i : Nat} : Rests classes existing i → Grounded classes existing i
  | builds {i j : Nat} : Builds classes i j → Grounded classes existing j →
      Grounded classes existing i

theorem Grounded.lt (h : Grounded classes existing i) : i < classes.length := by
  cases h with
  | rests h =>
    obtain ⟨_, hc, -⟩ := h
    exact (List.getElem?_eq_some_iff.mp hc).1
  | builds h =>
    obtain ⟨_, _, _, hc, -⟩ := h
    exact (List.getElem?_eq_some_iff.mp hc).1

theorem Grounded.strayBase?_eq_none (h : Grounded classes existing i) :
    strayBase? classes existing i = none := by
  cases h with
  | rests h => exact h.strayBase?_eq_none
  | builds h => exact h.strayBase?_eq_none

/-- What a class on a cycle leads to leads back to it, since there is only one way. -/
theorem leads_back (hnodup : (classes.map (·.name.text)).Nodup)
    (hcycle : TransGen (Builds classes) i i) (h : ReflTransGen (Builds classes) i j) :
    TransGen (Builds classes) j i := by
  induction h with
  | refl => exact hcycle
  | tail _ hstep ih =>
    obtain ⟨k, hfirst, hrest⟩ := TransGen.head'_iff.mp ih
    cases hstep.unique hnodup hfirst
    rcases reflTransGen_iff_eq_or_transGen.mp hrest with rfl | hrest
    · exact hcycle
    · exact hrest

theorem Grounded.acyclic (hnodup : (classes.map (·.name.text)).Nodup)
    (h : Grounded classes existing i) : ¬ TransGen (Builds classes) i i := by
  induction h with
  | rests h =>
    intro hcycle
    obtain ⟨_, hfirst, -⟩ := TransGen.head'_iff.mp hcycle
    exact h.not_builds hfirst
  | builds h _ ih =>
    intro hcycle
    exact ih ((leads_back hnodup hcycle (.single h)).tail h)

theorem grounded_iff (hnodup : (classes.map (·.name.text)).Nodup) :
    Grounded classes existing i ↔ ∃ way, Way classes existing i way := by
  constructor
  · intro h
    have hway : ∃ way : List Nat, way.head? = some i ∧ way.IsChain (Builds classes) ∧
        (∀ x ∈ way, Grounded classes existing x) ∧
        ∀ j ∈ way.getLast?, Rests classes existing j := by
      induction h with
      | @rests i h =>
        exact ⟨[i], rfl, .singleton i, by simpa using Grounded.rests h, by simpa using h⟩
      | @builds i j hij hj ih =>
        obtain ⟨way, hfirst, hlinked, hall, hrests⟩ := ih
        obtain ⟨rest, rfl⟩ : ∃ rest, way = j :: rest := by
          cases way with
          | nil => cases hfirst
          | cons x rest =>
            cases hfirst
            exact ⟨rest, rfl⟩
        refine ⟨i :: j :: rest, rfl, .cons_cons hij hlinked, fun x hx => ?_, hrests⟩
        rcases List.mem_cons.mp hx with rfl | hx
        · exact .builds hij hj
        · exact hall x hx
    obtain ⟨way, hfirst, hlinked, hall, hrests⟩ := hway
    refine ⟨way, hfirst, hlinked, ?_, hrests⟩
    have hpairs : way.Pairwise (TransGen (Builds classes)) :=
      List.isChain_iff_pairwise.mp (hlinked.imp fun _ _ h => .single h)
    refine hpairs.imp_of_mem fun hx _ hxy heq => ?_
    subst heq
    exact (hall _ hx).acyclic hnodup hxy
  · rintro ⟨way, hfirst, hlinked, -, hrests⟩
    induction way generalizing i with
    | nil => cases hfirst
    | cons x rest ih =>
      cases hfirst
      cases rest with
      | nil => exact .rests (hrests x rfl)
      | cons y rest =>
        rw [List.isChain_cons_cons] at hlinked
        exact .builds hlinked.1 (ih rfl hlinked.2 hrests)

/-! What is in order. -/

inductive Layered (classes : List ClassDecl) (existing : Container) : List Nat → Prop
  | nil : Layered classes existing []
  | rests {i : Nat} {l : List Nat} : Rests classes existing i → Layered classes existing l →
      Layered classes existing (i :: l)
  | builds {i j : Nat} {l : List Nat} : Builds classes i j → j ∈ l → Layered classes existing l →
      Layered classes existing (i :: l)

section

variable {l : List Nat}

theorem Layered.grounded (h : Layered classes existing l) :
    ∀ i ∈ l, Grounded classes existing i := by
  induction h with
  | nil => nofun
  | rests hi _ ih =>
    intro x hx
    rcases List.mem_cons.mp hx with rfl | hx
    · exact .rests hi
    · exact ih x hx
  | builds hij hj _ ih =>
    intro x hx
    rcases List.mem_cons.mp hx with rfl | hx
    · exact .builds hij (ih _ hj)
    · exact ih x hx

/-- A class is in front of its base. -/
theorem Layered.split (hnodup : (classes.map (·.name.text)).Nodup)
    (h : Layered classes existing l) (hi : i ∈ l) (hij : Builds classes i j) :
    ∃ front rest, l = front ++ i :: rest ∧ j ∈ rest := by
  induction h with
  | nil => cases hi
  | @rests x l hx _ ih =>
    rcases List.mem_cons.mp hi with rfl | hi
    · exact absurd hij hx.not_builds
    · obtain ⟨front, rest, rfl, hj⟩ := ih hi
      exact ⟨x :: front, rest, rfl, hj⟩
  | @builds x y l hxy hy _ ih =>
    rcases List.mem_cons.mp hi with rfl | hi
    · cases hxy.unique hnodup hij
      exact ⟨[], l, rfl, hy⟩
    · obtain ⟨front, rest, rfl, hj⟩ := ih hi
      exact ⟨x :: front, rest, rfl, hj⟩

theorem Layered.idxOf_lt (hnodup : (classes.map (·.name.text)).Nodup)
    (h : Layered classes existing l) (hl : l.Nodup) (hi : i ∈ l) (hij : Builds classes i j) :
    l.reverse.idxOf j < l.reverse.idxOf i := by
  obtain ⟨front, rest, rfl, hj⟩ := h.split hnodup hi hij
  have hnot : i ∉ rest.reverse := by
    rw [List.mem_reverse]
    exact (List.nodup_cons.mp hl.of_append_right).1
  rw [List.reverse_append, List.reverse_cons, List.append_assoc,
    List.idxOf_append_of_mem (List.mem_reverse.mpr hj), List.idxOf_append_of_notMem hnot]
  exact Nat.lt_of_lt_of_le (List.idxOf_lt_length_iff.mpr (List.mem_reverse.mpr hj))
    (Nat.le_add_right _ _)

/-- A way that ends well puts what it passed in front of what is in order. -/
theorem walk_layered (hnodup : (classes.map (·.name.text)).Nodup) {done : Progress}
    (hdone : Layered classes existing done.ordered) {path waiting path' waiting' : List Nat}
    (hwaiting : ∀ x ∈ waiting, x < classes.length)
    (hwalk : walk classes.toArray (places classes) existing done path waiting i =
      (path', waiting', .sound)) :
    ∃ new, path' = new ++ path ∧ Layered classes existing (new.reverse ++ done.ordered) ∧
      i ∈ new.reverse ++ done.ordered := by
  fun_induction walk classes.toArray (places classes) existing done path waiting i with
  | case1 path waiting i hi _ hbase =>
    cases hwalk
    exact ⟨[i], rfl, .rests (rests_of_base_none (hwaiting i hi) hbase) hdone, List.mem_cons_self⟩
  | case2 path waiting i hi _ base hbase j hj ih =>
    obtain ⟨new, hpath, hlayered, hmem⟩ :=
      ih (fun x hx => hwaiting x (List.mem_of_mem_erase hx)) hwalk
    refine ⟨new ++ [i], by simp [hpath], ?_, by simp⟩
    rw [List.reverse_append]
    exact .builds (builds_of_places hnodup hbase hj) hmem hlayered
  | case3 path waiting i hi _ base hbase hnone hold =>
    cases hwalk
    exact ⟨[i], rfl, .rests (rests_of_places hnodup hbase hnone hold) hdone, List.mem_cons_self⟩
  | case4 => cases hwalk
  | case5 path waiting i hi hordered =>
    cases hwalk
    exact ⟨[], rfl, hdone, List.contains_iff_mem.mp hordered⟩
  | case6 => cases hwalk
  | case7 => cases hwalk

end

/-! What is broken. -/

/-- Where a broken way ends, behind the classes on it, last one first: at one that is broken
already, at a base that nobody knows, or at a class on the way itself. -/
inductive Fails (classes : List ClassDecl) (existing : Container) (broken : List Nat) :
    List Nat → Option CompileError → Prop
  | known {path : List Nat} : (∀ x ∈ path.head?, ∃ y ∈ broken, Builds classes x y) →
      Fails classes existing broken path none
  | stray {x : Nat} {path : List Nat} {e : CompileError} :
      strayBase? classes existing x = some e → Fails classes existing broken (x :: path) (some e)
  | cycle {x j : Nat} {path : List Nat} : j ∈ x :: path → Builds classes x j →
      Fails classes existing broken (x :: path) (cycleError? classes j)

abbrev Linked (classes : List ClassDecl) (path : List Nat) : Prop :=
  path.IsChain fun x y => Builds classes y x

theorem Linked.reaches {path : List Nat} (h : Linked classes (i :: path)) :
    ∀ x ∈ i :: path, ReflTransGen (Builds classes) x i := by
  have hpairs : (i :: path).Pairwise (Function.swap (TransGen (Builds classes))) :=
    (h.imp fun _ _ h => .single h :
      List.IsChain (Function.swap (TransGen (Builds classes))) _).pairwise
  intro x hx
  rcases List.mem_cons.mp hx with rfl | hx
  · exact .refl
  · exact (List.rel_of_pairwise_cons hpairs hx).to_reflTransGen

theorem Linked.builds_next {path : List Nat} (h : Linked classes (i :: path)) :
    ∀ x ∈ path, ∃ y ∈ i :: path, Builds classes x y := by
  induction path generalizing i with
  | nil => nofun
  | cons z path ih =>
    intro x hx
    rw [Linked, List.isChain_cons_cons] at h
    rcases List.mem_cons.mp hx with rfl | hx
    · exact ⟨i, List.mem_cons_self, h.1⟩
    · obtain ⟨y, hy, hxy⟩ := ih h.2 x hx
      exact ⟨y, List.mem_cons_of_mem i hy, hxy⟩

/-- With where the way leads to from its last class. -/
theorem Linked.builds_on {path : List Nat} (h : Linked classes (i :: path))
    (hij : Builds classes i j) :
    ∀ x ∈ i :: path, ∃ y, (y ∈ i :: path ∨ y = j) ∧ Builds classes x y := by
  intro x hx
  rcases List.mem_cons.mp hx with rfl | hx
  · exact ⟨j, .inr rfl, hij⟩
  · obtain ⟨y, hy, hxy⟩ := h.builds_next x hx
    exact ⟨y, .inl hy, hxy⟩

theorem filterMap_strayBase?_eq_nil {path : List Nat} (h : ∀ x ∈ path, ∃ y, Builds classes x y) :
    path.filterMap (strayBase? classes existing) = [] := by
  refine List.filterMap_eq_nil_iff.mpr fun x hx => ?_
  obtain ⟨y, hxy⟩ := h x hx
  exact hxy.strayBase?_eq_none

/-- A way that is broken says where. -/
theorem walk_fails (hnodup : (classes.map (·.name.text)).Nodup) {done : Progress}
    {path waiting path' waiting' : List Nat} {error : Option CompileError}
    (hperm : (path ++ waiting ++ done.ordered ++ done.broken).Perm (List.range classes.length))
    (hi : i < classes.length) (hpath : Linked classes path)
    (hnext : ∀ x ∈ path.head?, Builds classes x i)
    (hwalk : walk classes.toArray (places classes) existing done path waiting i =
      (path', waiting', .broken error)) :
    Linked classes path' ∧ Fails classes existing done.broken path' error := by
  have hlinked {path : List Nat} {i : Nat} (hpath : Linked classes path)
      (hnext : ∀ x ∈ path.head?, Builds classes x i) : Linked classes (i :: path) := by
    cases path with
    | nil => exact .singleton i
    | cons x path => exact .cons_cons (hnext x rfl) hpath
  fun_induction walk classes.toArray (places classes) existing done path waiting i with
  | case1 => cases hwalk
  | case2 path waiting i hmem _ base hbase j hj ih =>
    have hij := builds_of_places hnodup hbase hj
    refine ih (.trans ?_ hperm) hij.lt_right (hlinked hpath hnext) (by simpa using hij) hwalk
    refine List.Perm.append_right _ (List.Perm.append_right _ ?_)
    exact List.perm_middle.symm.trans ((List.perm_cons_erase hmem).symm.append_left path)
  | case3 => cases hwalk
  | case4 path waiting i hmem _ base hbase hnone hnew =>
    cases hwalk
    exact ⟨hlinked hpath hnext, .stray (strayBase?_of_places hnodup hbase hnone hnew)⟩
  | case5 => cases hwalk
  | case6 path waiting i hmem hordered hbroken =>
    cases hwalk
    exact ⟨hpath, .known fun x hx => ⟨i, List.contains_iff_mem.mp hbroken, hnext x hx⟩⟩
  | case7 path waiting i hmem hordered hbroken =>
    rw [List.getElem?_toArray] at hwalk
    obtain ⟨rfl, hends⟩ := Prod.mk.inj hwalk
    obtain ⟨-, hends⟩ := Prod.mk.inj hends
    cases hends
    -- the class is nowhere else, so it is on the way
    have hon : i ∈ path := by
      have := hperm.symm.subset (List.mem_range.mpr hi)
      simpa [hmem, List.contains_iff_mem.not.mp hordered, List.contains_iff_mem.not.mp hbroken]
        using this
    refine ⟨hpath, ?_⟩
    cases path with
    | nil => cases hon
    | cons x path => exact .cycle hon (hnext x rfl)

/-- What is broken, with the cycles found so far, each by one of its classes, and the errors. -/
structure Reported (classes : List ClassDecl) (existing : Container) (broken cyclic : List Nat)
    (errors : List CompileError) : Prop where
  closed : ∀ i ∈ broken, (strayBase? classes existing i).isSome ∨
    ∃ j ∈ broken, Builds classes i j
  nodup : cyclic.Nodup
  around : ∀ h ∈ cyclic, h ∈ broken ∧ TransGen (Builds classes) h h
  found : ∀ i ∈ broken, TransGen (Builds classes) i i →
    ∃ h ∈ cyclic, TransGen (Builds classes) i h
  apart : ∀ h ∈ cyclic, ∀ h' ∈ cyclic, TransGen (Builds classes) h h' → h = h'
  perm : errors.Perm (broken.filterMap (strayBase? classes existing) ++
    cyclic.filterMap (cycleError? classes))

section

variable {broken cyclic : List Nat} {errors : List CompileError}

theorem Reported.mem_of_builds (hnodup : (classes.map (·.name.text)).Nodup)
    (h : Reported classes existing broken cyclic errors) (hi : i ∈ broken)
    (hij : Builds classes i j) : j ∈ broken := by
  rcases h.closed i hi with hstray | ⟨k, hk, hik⟩
  · rw [hij.strayBase?_eq_none] at hstray
    cases hstray
  · rwa [hij.unique hnodup hik]

theorem Reported.mem_of_reaches (hnodup : (classes.map (·.name.text)).Nodup)
    (h : Reported classes existing broken cyclic errors) (hi : i ∈ broken)
    (hij : ReflTransGen (Builds classes) i j) : j ∈ broken := by
  induction hij with
  | refl => exact hi
  | tail _ hstep ih => exact h.mem_of_builds hnodup ih hstep

/-- From what is broken no way ends well. -/
theorem Reported.not_grounded (hnodup : (classes.map (·.name.text)).Nodup)
    (h : Reported classes existing broken cyclic errors) (hi : Grounded classes existing i) :
    i ∉ broken := by
  induction hi with
  | rests hrests =>
    intro hbroken
    rcases h.closed _ hbroken with hstray | ⟨j, -, hij⟩
    · rw [hrests.strayBase?_eq_none] at hstray
      cases hstray
    · exact hrests.not_builds hij
  | builds hij _ ih => exact fun hbroken => ih (h.mem_of_builds hnodup hbroken hij)

/-- Classes that were not broken before, with a class of the new cycle if there is one. -/
theorem Reported.extend (hnodup : (classes.map (·.name.text)).Nodup)
    (h : Reported classes existing broken cyclic errors) {path : List Nat}
    {error : Option CompileError} (new : Option Nat) (hfresh : ∀ x ∈ path, x ∉ broken)
    (hclosed : ∀ x ∈ path, (strayBase? classes existing x).isSome ∨
      ∃ y ∈ path ++ broken, Builds classes x y)
    (hnew : ∀ j ∈ new, j ∈ path ∧ TransGen (Builds classes) j j)
    (hfound : ∀ x ∈ path, TransGen (Builds classes) x x →
      ∃ j ∈ new, TransGen (Builds classes) x j)
    (hperm : error.toList.Perm (path.filterMap (strayBase? classes existing) ++
      new.toList.filterMap (cycleError? classes))) :
    Reported classes existing (path ++ broken) (new.toList ++ cyclic)
      (error.toList ++ errors) := by
  have hpast {j : Nat} (hj : j ∈ new) : j ∉ broken := hfresh j (hnew j hj).1
  refine ⟨fun x hx => ?_, ?_, fun x hx => ?_, fun x hx hcycle => ?_, fun x hx y hy hxy => ?_, ?_⟩
  · rcases List.mem_append.mp hx with hx | hx
    · exact hclosed x hx
    · exact (h.closed x hx).imp_right fun ⟨y, hy, hxy⟩ => ⟨y, List.mem_append_right path hy, hxy⟩
  · cases new with
    | none => exact h.nodup
    | some j => exact List.nodup_cons.mpr ⟨fun hj => hpast rfl (h.around j hj).1, h.nodup⟩
  · rcases List.mem_append.mp hx with hx | hx
    · obtain ⟨hpath, hcycle⟩ := hnew x (Option.mem_toList.mp hx)
      exact ⟨List.mem_append_left broken hpath, hcycle⟩
    · obtain ⟨hbroken, hcycle⟩ := h.around x hx
      exact ⟨List.mem_append_right path hbroken, hcycle⟩
  · rcases List.mem_append.mp hx with hx | hx
    · obtain ⟨j, hj, hxj⟩ := hfound x hx hcycle
      exact ⟨j, List.mem_append_left cyclic (Option.mem_toList.mpr hj), hxj⟩
    · obtain ⟨y, hy, hxy⟩ := h.found x hx hcycle
      exact ⟨y, List.mem_append_right _ hy, hxy⟩
  · rcases List.mem_append.mp hx with hx | hx <;> rcases List.mem_append.mp hy with hy | hy
    · exact Option.mem_unique (Option.mem_toList.mp hx) (Option.mem_toList.mp hy)
    · have hx := Option.mem_toList.mp hx
      have hback := leads_back hnodup (hnew x hx).2 hxy.to_reflTransGen
      exact absurd (h.mem_of_reaches hnodup (h.around y hy).1 hback.to_reflTransGen) (hpast hx)
    · have hy := Option.mem_toList.mp hy
      exact absurd (h.mem_of_reaches hnodup (h.around x hx).1 hxy.to_reflTransGen) (hpast hy)
    · exact h.apart x hx y hy hxy
  · rw [List.filterMap_append, List.filterMap_append, List.append_assoc]
    refine (hperm.append h.perm).trans ?_
    rw [List.append_assoc]
    exact (List.perm_append_comm_assoc _ _ _).append_left _

/-- A broken way adds what it passed, and the error that it ends with. -/
theorem Reported.fails (hnodup : (classes.map (·.name.text)).Nodup)
    (h : Reported classes existing broken cyclic errors) {path : List Nat}
    {error : Option CompileError} (hlinked : Linked classes path)
    (hfresh : ∀ x ∈ path, x ∉ broken) (hfails : Fails classes existing broken path error) :
    ∃ cyclic', Reported classes existing (path ++ broken) cyclic' (error.toList ++ errors) := by
  cases hfails with
  | known hbroken =>
    cases path with
    | nil => exact ⟨cyclic, h⟩
    | cons x path =>
      obtain ⟨y, hy, hxy⟩ := hbroken x rfl
      have hnext := hlinked.builds_on hxy
      refine ⟨_, h.extend hnodup none hfresh (fun z hz => .inr ?_) nofun ?_ ?_⟩
      · obtain ⟨w, hw, hzw⟩ := hnext z hz
        refine ⟨w, List.mem_append.mpr (hw.imp_right ?_), hzw⟩
        rintro rfl
        exact hy
      · -- a cycle would come back from what was broken before
        intro z hz hcycle
        have hback := leads_back hnodup hcycle ((hlinked.reaches z hz).tail hxy)
        exact absurd (h.mem_of_reaches hnodup hy hback.to_reflTransGen) (hfresh z hz)
      · rw [filterMap_strayBase?_eq_nil fun z hz => (hnext z hz).imp fun _ hw => hw.2]
        rfl
  | @stray x path e hstray =>
    have hend : ∀ y, ¬ Builds classes x y := by
      intro y hxy
      rw [hxy.strayBase?_eq_none] at hstray
      cases hstray
    refine ⟨_, h.extend hnodup none hfresh (fun z hz => ?_) nofun ?_ ?_⟩
    · rcases List.mem_cons.mp hz with rfl | hz
      · exact .inl (Option.isSome_of_eq_some hstray)
      · obtain ⟨w, hw, hzw⟩ := hlinked.builds_next z hz
        exact .inr ⟨w, List.mem_append_left broken hw, hzw⟩
    · intro z hz hcycle
      obtain ⟨y, hxy, -⟩ :=
        TransGen.head'_iff.mp (leads_back hnodup hcycle (hlinked.reaches z hz))
      exact absurd hxy (hend y)
    · rw [List.filterMap_cons_some hstray, filterMap_strayBase?_eq_nil fun z hz =>
        (hlinked.builds_next z hz).imp fun _ hw => hw.2]
      rfl
  | @cycle x j path hj hxj =>
    have hnext := hlinked.builds_on hxj
    have hreach : ∀ z ∈ x :: path, TransGen (Builds classes) z j :=
      fun z hz => TransGen.tail' (hlinked.reaches z hz) hxj
    obtain ⟨e, herror⟩ : ∃ e, cycleError? classes j = some e := by
      rw [cycleError?, List.getElem?_eq_getElem hxj.lt_right]
      exact ⟨_, rfl⟩
    refine ⟨_, h.extend hnodup (some j) hfresh (fun z hz => .inr ?_) (fun y hy => ?_) ?_ ?_⟩
    · obtain ⟨w, hw, hzw⟩ := hnext z hz
      refine ⟨w, List.mem_append_left broken (hw.elim id ?_), hzw⟩
      rintro rfl
      exact hj
    · cases hy
      exact ⟨hj, hreach j hj⟩
    · exact fun z hz _ => ⟨j, rfl, hreach z hz⟩
    · rw [filterMap_strayBase?_eq_nil fun z hz => (hnext z hz).imp fun _ hw => hw.2,
        Option.toList_some, List.filterMap_cons_some herror, herror]
      rfl

end

/-! Visits. -/

/-- Each class waits, is in order behind its base, or is broken and reported. -/
structure Progress.Sorts (classes : List ClassDecl) (existing : Container) (k : Nat)
    (done : Progress) : Prop where
  past : done.Past classes.length k
  layered : Layered classes existing done.ordered
  reported : ∃ cyclic, Reported classes existing done.broken cyclic done.errors

theorem Progress.Sorts.visit (hnodup : (classes.map (·.name.text)).Nodup) {done : Progress}
    (h : done.Sorts classes existing k) (hk : k < classes.length) :
    (visit classes.toArray (places classes) existing done k).Sorts classes existing (k + 1) := by
  have hpast : (ClassOrder.visit classes.toArray (places classes) existing done k).Past
      classes.length (k + 1) := h.past.visit
  obtain ⟨cyclic, hreported⟩ := h.reported
  have hperm : ([] ++ done.waiting ++ done.ordered ++ done.broken).Perm
      (List.range classes.length) := h.past.perm
  unfold ClassOrder.visit at hpast ⊢
  generalize hwalk : walk classes.toArray (places classes) existing done [] done.waiting k = r
    at hpast ⊢
  obtain ⟨path, waiting, ending⟩ := r
  cases ending with
  | sound =>
    have hwaiting : ∀ x ∈ done.waiting, x < classes.length := fun x hx =>
      List.mem_range.mp (h.past.perm.subset
        (List.mem_append_left _ (List.mem_append_left _ hx)))
    obtain ⟨new, hpath, hlayered, -⟩ := walk_layered hnodup h.layered hwaiting hwalk
    rw [List.append_nil] at hpath
    subst hpath
    exact ⟨hpast, hlayered, cyclic, hreported⟩
  | broken error =>
    obtain ⟨hlinked, hfails⟩ := walk_fails hnodup hperm hk .nil nofun hwalk
    obtain ⟨-, -, hmoved⟩ := walk_waiting hwalk
    have hfresh : ∀ x ∈ path, x ∉ done.broken := by
      intro x hx hbroken
      have hwaits : x ∈ done.waiting := hmoved.subset (List.mem_append_left waiting hx)
      have hapart := List.disjoint_of_nodup_append
        (h.past.perm.nodup_iff.mpr List.nodup_range)
      exact hapart (List.mem_append_left _ hwaits) hbroken
    exact ⟨hpast, h.layered, hreported.fails hnodup hlinked hfresh hfails⟩

theorem foldl_visit_sorts (hnodup : (classes.map (·.name.text)).Nodup) (hk : k ≤ classes.length) :
    ((List.range k).foldl (visit classes.toArray (places classes) existing)
      { waiting := List.range classes.length }).Sorts classes existing k := by
  induction k with
  | zero =>
    refine ⟨⟨by simp, fun x _ => Nat.zero_le x⟩, .nil, [], ?_⟩
    exact ⟨nofun, List.nodup_nil, nofun, nofun, nofun, .refl _⟩
  | succ k ih =>
    rw [List.range_succ, List.foldl_append]
    exact (ih (Nat.le_of_succ_le hk)).visit hnodup hk

end

end ClassOrder

open ClassOrder

/-- Classes with names of their own are put in order as far as their bases go, and what is wrong
with the others is told once. -/
theorem orderClasses_complete {classes : List ClassDecl} (existing : Container)
    (h : (classes.map (·.name.text)).Nodup) :
    Complete classes existing (orderClasses classes existing).1
      (orderClasses classes existing).2 := by
  have hall (hnone : (orderClasses classes existing).2 = []) :
      ∀ i < classes.length, i ∈ (orderClasses classes existing).1 :=
    fun i hi => mem_orderClasses hnone hi
  rw [orderClasses_eq] at hall ⊢
  have hsorts : ((List.range classes.length).foldl (visit classes.toArray (places classes) existing)
      { waiting := List.range classes.length }).Sorts classes existing classes.length :=
    foldl_visit_sorts h (Nat.le_refl classes.length)
  generalize (List.range classes.length).foldl (visit classes.toArray (places classes) existing)
    { waiting := List.range classes.length } = done at hall hsorts ⊢
  obtain ⟨hpast, hlayered, cyclic, hreported⟩ := hsorts
  have hperm : (done.ordered ++ done.broken).Perm (List.range classes.length) := by
    have := hpast.perm
    rwa [hpast.waiting_eq, List.nil_append] at this
  have hdone : (done.ordered ++ done.broken).Nodup := hperm.nodup_iff.mpr List.nodup_range
  have hgrounded (i : Nat) : i ∈ done.ordered ↔ Grounded classes existing i := by
    refine ⟨hlayered.grounded i, fun hi => ?_⟩
    have hmem := hperm.symm.subset (List.mem_range.mpr hi.lt)
    exact (List.mem_append.mp hmem).resolve_right (hreported.not_grounded h hi)
  refine ⟨?_, fun i => ?_, fun i hi j hij => ?_, ⟨cyclic, hreported.nodup, ?_, ?_, ?_⟩, hall, ?_⟩
  · exact List.nodup_reverse.mpr hdone.of_append_left
  · rw [List.mem_reverse, hgrounded, grounded_iff h]
  · exact hlayered.idxOf_lt h hdone.of_append_left (List.mem_reverse.mp hi) hij
  · exact fun x hx => (hreported.around x hx).2
  · intro i hcycle
    obtain ⟨_, ⟨_, _, _, hc, -⟩, -⟩ := Relation.TransGen.head'_iff.mp hcycle
    have hmem := hperm.symm.subset (List.mem_range.mpr (List.getElem?_eq_some_iff.mp hc).1)
    have hbroken : i ∈ done.broken := (List.mem_append.mp hmem).resolve_left fun hi =>
      ((hgrounded i).mp hi).acyclic h hcycle
    obtain ⟨x, hx, hix⟩ := hreported.found i hbroken hcycle
    refine ⟨x, ⟨hx, hix⟩, fun y ⟨hy, hiy⟩ => ?_⟩
    exact hreported.apart y hy x hx ((leads_back h hcycle hiy.to_reflTransGen).trans hix)
  · have hnone : done.ordered.filterMap (strayBase? classes existing) = [] :=
      List.filterMap_eq_nil_iff.mpr fun i hi => ((hgrounded i).mp hi).strayBase?_eq_none
    have hstray := hperm.filterMap (strayBase? classes existing)
    rw [List.filterMap_append, hnone, List.nil_append] at hstray
    exact (List.reverse_perm _).trans (hreported.perm.trans (hstray.append_right _))
  · intro hmem
    have hbroken : done.broken = [] := by
      rw [List.eq_nil_iff_forall_not_mem]
      intro i hi
      have hlt := List.mem_range.mp (hperm.subset (List.mem_append_right _ hi))
      exact List.disjoint_of_nodup_append hdone (List.mem_reverse.mp (hmem i hlt)) hi
    have hcyclic : cyclic = [] := by
      rw [List.eq_nil_iff_forall_not_mem]
      intro x hx
      have := (hreported.around x hx).1
      rw [hbroken] at this
      cases this
    have hnone := hreported.perm
    rw [hbroken, hcyclic] at hnone
    rw [List.reverse_eq_nil_iff]
    exact List.perm_nil.mp hnone

/-- Ways that end, at a class of the list and at one of the container; a cycle with a class beside
it; and an unknown base below another class. -/
def ClassOrder.tangled : List ClassDecl :=
  [("C", some "B"), ("B", some "A"), ("A", none), ("R", some "P"), ("P", some "Q"),
    ("Q", some "P"), ("N", some "M"), ("M", some "Lost"), ("H", some "Held")].map
      fun (name, base) => ⟨.identifier name, base.map .identifier, [], []⟩

theorem orderClasses_complete_tangled :
    let held : Container := { classes := [{ name := "Held" }] }
    (tangled.map (·.name.text)).Nodup ∧
      orderClasses tangled held = ([2, 1, 0, 8],
        [.inheritanceCycle "P" .synthetic, .undefinedClass "Lost" .synthetic]) ∧
      Complete tangled held [2, 1, 0, 8]
        [.inheritanceCycle "P" .synthetic, .undefinedClass "Lost" .synthetic] := by
  intro held
  have hnodup : (tangled.map (·.name.text)).Nodup := by decide
  have hrun : orderClasses tangled held = ([2, 1, 0, 8],
      [.inheritanceCycle "P" .synthetic, .undefinedClass "Lost" .synthetic]) := by
    decide +kernel
  have hcomplete := orderClasses_complete held hnodup
  rw [hrun] at hcomplete
  exact ⟨hnodup, hrun, hcomplete⟩

end Lss
