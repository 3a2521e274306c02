import Lss.Proofs.Chains
import Lss.Proofs.Joined

/-!
# Classes with all their members

A compiled class lists the members of its base and its own: properties behind those of the base,
methods in the place of inherited ones of their name or as new ones. Bodies are checked against
layouts that are derived from declarations alone. What such a layout says of a class is what can be
read off the class once it is compiled, however many bases it has and whichever session they are
from.
-/
namespace Lss

open Lower

/-! A base comes first. -/

namespace ClassOrder

variable {classes : List ClassDecl} {existing : Container}

theorem Layered.of_append {front l : List Nat} (h : Layered classes existing (front ++ l)) :
    Layered classes existing l := by
  induction front with
  | nil => exact h
  | cons i front ih =>
    cases h with
    | rests _ h => exact ih h
    | builds _ _ h => exact ih h

theorem base_of_ordered (hnodup : (classes.map (·.name.text)).Nodup) {pre post : List ClassDecl}
    {d : ClassDecl} {b : Token}
    (h : (orderClasses classes existing).1.filterMap (classes.toArray[·]?) = pre ++ d :: post)
    (hb : d.base = some b) :
    b.text ∈ pre.map (·.name.text) ∨ (existing.findClass? b.text).isSome := by
  obtain ⟨before, behind, horder, rfl, hbehind⟩ := List.filterMap_eq_append_iff.mp h
  obtain ⟨skipped, i, rest, rfl, hskipped, hi, -⟩ := List.filterMap_eq_cons_iff.mp hbehind
  have hlayered : Layered classes existing (i :: (before ++ skipped).reverse) := by
    have hall : ((List.range classes.length).foldl (visit classes.toArray (places classes) existing)
        { waiting := List.range classes.length }).Sorts classes existing classes.length :=
      foldl_visit_sorts hnodup (Nat.le_refl _)
    have hall := hall.layered
    rw [orderClasses_eq, List.reverse_eq_iff] at horder
    rw [horder, List.reverse_append, List.reverse_append, List.reverse_cons, List.append_assoc,
      List.append_assoc] at hall
    rw [List.reverse_append]
    exact hall.of_append
  rw [List.getElem?_toArray] at hi
  cases hlayered with
  | rests hrests =>
    obtain ⟨c, hc, hbase⟩ := hrests
    cases hi.symm.trans hc
    exact .inr (hbase b hb).2
  | @builds _ j _ hbuilds hj =>
    obtain ⟨c, b', e, hc, hb', he, hname⟩ := hbuilds
    cases hi.symm.trans hc
    cases hb.symm.trans hb'
    have hj : j ∈ before ∨ j ∈ skipped := List.mem_append.mp (List.mem_reverse.mp hj)
    rw [← List.getElem?_toArray] at he
    have hj : j ∈ before := hj.resolve_right fun hj => by
      rw [hskipped j hj] at he
      cases he
    exact .inl (List.mem_map.mpr ⟨e, List.mem_filterMap.mpr ⟨j, hj, he⟩, hname⟩)

end ClassOrder

/-! What is found by name. -/

section

variable {α : Type} {f : α → String} {as bs : List α}

theorem find?_append_left {name : String} (h : name ∈ as.map f) :
    (as ++ bs).find? (f · == name) = as.find? (f · == name) := by
  obtain ⟨a, ha, rfl⟩ := List.mem_map.mp h
  rw [List.find?_append, Option.or_of_isSome]
  rw [List.find?_isSome]
  exact ⟨a, ha, beq_self_eq_true _⟩

theorem exists_of_mem_left {β : Type} {R : α → β → Prop} {bs : List β} {a : α}
    (h : List.Forall₂ R as bs) (ha : a ∈ as) : ∃ b, R a b := by
  induction h with
  | nil => cases ha
  | cons hone _ ih =>
    rcases List.mem_cons.mp ha with rfl | ha
    · exact ⟨_, hone⟩
    · exact ih ha

theorem find?_append_right {name : String} (h : name ∉ as.map f) :
    (as ++ bs).find? (f · == name) = bs.find? (f · == name) := by
  rw [List.find?_append, List.find?_eq_none.mpr, Option.none_or]
  intro a ha heq
  exact h (List.mem_map.mpr ⟨a, ha, eq_of_beq heq⟩)

/-- Where no two have the same key, what is found by its key is itself. -/
theorem find?_of_nodup {β : Type} [BEq β] [LawfulBEq β] {key : α → β} {a : α}
    (hnodup : (as.map key).Nodup) (ha : a ∈ as) : as.find? (key · == key a) = some a := by
  have hsome : (as.find? (key · == key a)).isSome :=
    List.find?_isSome.mpr ⟨a, ha, beq_self_eq_true (key a)⟩
  obtain ⟨b, hfound⟩ := Option.isSome_iff_exists.mp hsome
  have hkey := List.find?_some hfound
  rw [hfound, List.inj_on_of_nodup_map hnodup (List.mem_of_find?_eq_some hfound) ha
    (eq_of_beq hkey)]

end

/-! Properties. -/

def newNames (known : List String) (ts : List Token) : List String :=
  ((ts.map (·.text)).filter fun x => !known.contains x).eraseDups

theorem newNames_cons_of_mem {known : List String} {t : Token} (h : t.text ∈ known)
    (ts : List Token) : newNames known (t :: ts) = newNames known ts := by
  simp [newNames, h]

theorem newNames_cons_of_not_mem {known : List String} {t : Token} (h : t.text ∉ known)
    (ts : List Token) :
    newNames known (t :: ts) = t.text :: newNames (known ++ [t.text]) ts := by
  have hsplit (x : String) : (!(known ++ [t.text]).contains x) =
      ((!x == t.text) && !known.contains x) := by
    rw [List.contains_append, List.contains_cons, List.contains_nil, Bool.or_false, Bool.not_or,
      Bool.and_comm]
  simp only [newNames, List.map_cons, hsplit]
  rw [List.filter_cons_of_pos (by simpa using h), List.eraseDups_cons, List.filter_filter]

theorem ClassLayout.properties_derive (d : ClassDecl) (l : Option ClassLayout) :
    (derive d l).properties =
      (l.getD {}).properties ++ newNames (l.getD {}).properties d.properties := by
  unfold derive
  dsimp only
  generalize (l.getD {}).properties = known
  induction d.properties generalizing known with
  | nil => exact (List.append_nil known).symm
  | cons t ts ih =>
    rw [List.foldl_cons, ih]
    by_cases ht : t.text ∈ known
    · rw [if_pos (List.contains_iff_mem.mpr ht), newNames_cons_of_mem ht]
    · rw [if_neg (mt List.contains_iff_mem.mp ht), newNames_cons_of_not_mem ht,
        List.append_assoc]
      rfl

def Pool.Names (q : Pool) (s : SymbolId) (x : String) : Prop :=
  q.symbols.get? s.index = some x

section

variable {p q : Pool} {s s' : SymbolId} {x y : String} {ss : List SymbolId} {xs : List String}

theorem Pool.Names.mono (hpq : p.Extends q) (h : p.Names s x) : q.Names s x :=
  hpq.symbols.get? h

theorem Pool.Names.name_unique (h : q.Names s x) (k : q.Names s y) : x = y :=
  Option.some.inj (h.symm.trans k)

theorem Pool.Names.unique (hq : q.Sound) (h : q.Names s x) (k : q.Names s' x) : s = s' :=
  congrArg SymbolId.mk (hq.symbols.get?_inj h k)

theorem Pool.mem_iff_of_names (hq : q.Sound) (hall : List.Forall₂ q.Names ss xs)
    (h : q.Names s x) : s ∈ ss ↔ x ∈ xs := by
  induction hall with
  | nil => simp
  | @cons s' x' _ _ hone _ ih =>
    rw [List.mem_cons, List.mem_cons, ih]
    refine or_congr_left ⟨?_, ?_⟩
    · rintro rfl
      exact h.name_unique hone
    · rintro rfl
      exact h.unique hq hone

theorem filterMap_of_names (h : List.Forall₂ q.Names ss xs) :
    ss.filterMap (fun s => q.symbols.get? s.index) = xs := by
  induction h with
  | nil => rfl
  | @cons s x _ _ hone _ ih =>
    have hone : q.symbols.get? s.index = some x := hone
    rw [List.filterMap_cons, hone, ih]

end

/-- Properties go behind those of the base, unless they have a name that is there. -/
theorem lowerProperties_names {p q : Pool} {k k' : ClassEntry} {ts : List Token}
    {known : List String} (hp : p.Sound) (hknown : List.Forall₂ p.Names k.properties known)
    (h : (ts.foldlM lowerProperty k : Lower ClassEntry).run.run p = (.ok k', q)) :
    q.Sound ∧ p.Extends q ∧ ∃ own, k' = { k with properties := k.properties ++ own } ∧
      List.Forall₂ q.Names own (newNames known ts) := by
  induction ts generalizing p k known with
  | nil =>
    cases h
    exact ⟨hp, .refl _, [], by rw [List.append_nil], .nil⟩
  | cons t ts ih =>
    rw [List.foldlM_cons, lowerProperty, bind_assoc] at h
    obtain ⟨s, r, hs, h⟩ := run_bind_eq_ok.mp h
    rw [pure_bind] at h
    have hmeets : Meets p (quiet (symbol t.text)) fun q s => q.Names s t.text :=
      .quiet (fun _ => .symbol t.text) fun _ _ _ hpq hs => hs.mono hpq
    obtain ⟨hr, hext, hname⟩ := hmeets.sound (Interning.symbol t.text).quiet hp hs
    have hknown := hknown.imp fun _ _ hs => hs.mono hext
    have hmem := Pool.mem_iff_of_names hr hknown hname
    by_cases ht : t.text ∈ known
    · rw [ClassEntry.hasProperty, if_pos (List.contains_iff_mem.mpr (hmem.mpr ht))] at h
      rw [newNames_cons_of_mem ht]
      obtain ⟨hq, hrest, hown⟩ := ih hr hknown h
      exact ⟨hq, hext.trans hrest, hown⟩
    · rw [ClassEntry.hasProperty,
        if_neg (mt List.contains_iff_mem.mp fun hs => ht (hmem.mp hs))] at h
      rw [newNames_cons_of_not_mem ht]
      obtain ⟨hq, hrest, own, rfl, hown⟩ :=
        ih hr (List.rel_append hknown (.cons hname .nil)) h
      refine ⟨hq, hext.trans hrest, s :: own, ?_, .cons (hname.mono hrest) hown⟩
      rw [List.append_assoc]
      rfl

/-! Methods. -/

theorem ClassEntry.method?_putMethod (k : ClassEntry) (e : MethodEntry) (s : SymbolId) :
    ({ k with methods := Session.putMethod e k.methods } : ClassEntry).method? s =
      if e.symbol = s then some e else k.method? s := by
  show (Session.putMethod e k.methods).find? (·.symbol == s) =
    if e.symbol = s then some e else k.methods.find? (·.symbol == s)
  have hcons (n : MethodEntry) (ns : List MethodEntry) : (n :: ns).find? (·.symbol == s) =
      if n.symbol = s then some n else ns.find? (·.symbol == s) := by
    by_cases h : n.symbol = s <;> simp [h]
  induction k.methods with
  | nil => exact hcons e []
  | cons n ns ih =>
    unfold Session.putMethod
    split
    · next hsame =>
      rw [hcons, hcons, hsame]
      split <;> rfl
    · next hother =>
      rw [hcons, hcons, ih]
      by_cases h : e.symbol = s
      · rw [if_pos h, if_pos h, if_neg fun hn => hother (hn.trans h.symm)]
      · rw [if_neg h, if_neg h]

/-- The methods of an entry, with others of which each has code of its own: in the place of one with
its name, or as a new one. -/
structure ClassEntry.Overrides (q : Pool) (R : Subroutine → Code → Prop) (ms : List Subroutine)
    (k k' : ClassEntry) : Prop where
  own : ∀ m ∈ ms, ∃ e : MethodEntry, k'.method? e.symbol = some e ∧
    q.Names e.symbol m.name.text ∧ R m e.code
  kept : ∀ s, (∀ m ∈ ms, ¬ q.Names s m.name.text) → k'.method? s = k.method? s

section

variable {p q : Pool} {k k' : ClassEntry} {env : Env} {ms : List Subroutine}
  {R S : Subroutine → Code → Prop}

theorem ClassEntry.Overrides.imp (hpq : p.Extends q) (hRS : ∀ m code, R m code → S m code)
    (h : k.Overrides p R ms k') : k.Overrides q S ms k' := by
  refine ⟨fun m hm => ?_, fun s hs => h.kept s fun m hm hname => hs m hm (hname.mono hpq)⟩
  obtain ⟨e, he, hname, hcode⟩ := h.own m hm
  exact ⟨e, he, hname.mono hpq, hRS m e.code hcode⟩

theorem ClassEntry.method?_linked (place : String → UInt32) (k : ClassEntry) (s : SymbolId) :
    (k.linked place).method? s = (k.method? s).map (·.linked place) :=
  List.find?_map

theorem ClassEntry.Overrides.linked (h : k.Overrides q R ms k') (place : String → UInt32) :
    (k.linked place).Overrides q (fun m code => ∃ raw, R m raw ∧ code = raw.linked place) ms
      (k'.linked place) := by
  refine ⟨fun m hm => ?_, fun s hs => ?_⟩
  · obtain ⟨e, he, hname, hcode⟩ := h.own m hm
    refine ⟨e.linked place, ?_, hname, e.code, hcode, rfl⟩
    rw [ClassEntry.method?_linked]
    exact congrArg (Option.map (·.linked place)) he
  · rw [ClassEntry.method?_linked, ClassEntry.method?_linked, h.kept s hs]

theorem lowerSubroutine_lowered (hg : env.globals.Exact) (m : Subroutine) (p : Pool) :
    Meets p (lowerSubroutine env m) fun q code => LoweredInto q env m code := by
  intro hp code q hrun
  obtain ⟨hq, hext, -⟩ := lowerSubroutine_meets hg m hp code q hrun
  exact ⟨hq, hext, p, q, hp, hrun, .refl q⟩

theorem lowerMethod_puts (hg : env.globals.Exact) (k : ClassEntry) (m : Subroutine) :
    Meets p (lowerMethod env k m) fun q k' => ∃ e : MethodEntry,
      q.Names e.symbol m.name.text ∧ LoweredInto q env m e.code ∧
      k' = { k with methods := Session.putMethod e k.methods } := by
  unfold lowerMethod
  refine .bind (.quiet (fun _ => .symbol m.name.text) fun _ _ _ hpq hs => hpq.symbols.get? hs)
    fun q s _ hs => ?_
  refine .bind (.quiet (lowerSubroutine_lowered hg m) fun _ _ _ hpq hcode => hcode.mono hpq)
    fun q' code hq hcode => ?_
  exact .pure ⟨⟨s, code⟩, hq.symbols.get? hs, hcode, rfl⟩

theorem lowerMethods_overrides (hg : env.globals.Exact) (hp : p.Sound)
    (hnodup : (ms.map (·.name.text)).Nodup)
    (h : (ms.foldlM (lowerMethod env) k : Lower ClassEntry).run.run p = (.ok k', q)) :
    q.Sound ∧ p.Extends q ∧ (∃ methods, k' = { k with methods }) ∧
      k.Overrides q (LoweredInto q env) ms k' := by
  induction ms generalizing p k with
  | nil =>
    cases h
    exact ⟨hp, .refl _, ⟨_, rfl⟩, fun m hm => absurd hm List.not_mem_nil, fun _ _ => rfl⟩
  | cons m ms ih =>
    rw [List.foldlM_cons] at h
    rw [List.map_cons, List.nodup_cons] at hnodup
    obtain ⟨k₁, r, hone, h⟩ := run_bind_eq_ok.mp h
    obtain ⟨hr, hext, e, hname, hcode, rfl⟩ :=
      (lowerMethod_puts hg k m).sound (lowerMethod_interning env k m) hp hone
    obtain ⟨hq, hrest, ⟨methods, rfl⟩, hoverrides⟩ := ih hr hnodup.2 h
    have hname : q.Names e.symbol m.name.text := Pool.Names.mono hrest hname
    refine ⟨hq, hext.trans hrest, ⟨methods, rfl⟩, ?_, ?_⟩
    · intro m' hm'
      rcases List.mem_cons.mp hm' with rfl | hm'
      · -- the methods that follow have other names
        refine ⟨e, ?_, hname, hcode.mono hrest⟩
        rw [hoverrides.kept, ClassEntry.method?_putMethod, if_pos rfl]
        intro n hn hsame
        exact hnodup.1 (hname.name_unique hsame ▸ List.mem_map_of_mem hn)
      · exact hoverrides.own m' hm'
    · intro s hs
      rw [hoverrides.kept s fun n hn => hs n (List.mem_cons_of_mem m hn),
        ClassEntry.method?_putMethod, if_neg]
      rintro rfl
      exact hs m List.mem_cons_self hname

end

/-! Classes. -/

structure ClassEntry.Flattens (q : Pool) (R : Subroutine → Code → Prop) (d : ClassDecl)
    (k base : ClassEntry) : Prop where
  name : k.name = d.name.text
  properties : ∃ known own, List.Forall₂ q.Names base.properties known ∧
    k.properties = base.properties ++ own ∧ List.Forall₂ q.Names own (newNames known d.properties)
  methods : base.Overrides q R d.methods k

structure ClassEntry.Listed (q : Pool) (k : ClassEntry) (l : ClassLayout) : Prop where
  name : k.name = l.name
  properties : List.Forall₂ q.Names k.properties l.properties

section

variable {p q : Pool} {k k' base : ClassEntry} {l : ClassLayout} {d : ClassDecl}
  {R S : Subroutine → Code → Prop}

theorem ClassEntry.Flattens.imp (hpq : p.Extends q) (hRS : ∀ m code, R m code → S m code)
    (h : k.Flattens p R d base) : k.Flattens q S d base := by
  obtain ⟨known, own, hknown, heq, hown⟩ := h.properties
  exact ⟨h.name, ⟨known, own, hknown.imp fun _ _ hs => hs.mono hpq, heq,
    hown.imp fun _ _ hs => hs.mono hpq⟩, h.methods.imp hpq hRS⟩

theorem ClassEntry.Flattens.linked (h : k.Flattens q R d base) (place : String → UInt32) :
    (k.linked place).Flattens q (fun m code => ∃ raw, R m raw ∧ code = raw.linked place) d
      (base.linked place) :=
  ⟨h.name, h.properties, h.methods.linked place⟩

theorem ClassEntry.Listed.mono (hpq : p.Extends q) (h : k.Listed p l) : k.Listed q l :=
  ⟨h.name, h.properties.imp fun _ _ hs => hs.mono hpq⟩

theorem ClassEntry.Listed.linked (h : k.Listed q l) (place : String → UInt32) :
    (k.linked place).Listed q l := ⟨h.name, h.properties⟩

theorem ClassEntry.Listed.properties_eq (h : k.Listed q l) :
    (ClassLayout.ofEntry k q.symbols).properties = l.properties :=
  filterMap_of_names h.properties

/-! What a class has of some layout, it has of the one that is read off it. -/

theorem ClassEntry.Listed.self (h : k.Listed q l) :
    k.Listed q (ClassLayout.ofEntry k q.symbols) := by
  refine ⟨rfl, ?_⟩
  rw [h.properties_eq]
  exact h.properties

theorem ClassEntry.Laid.self (h : k.Laid q l) : k.Laid q (ClassLayout.ofEntry k q.symbols) :=
  h.of_methods rfl rfl h.alike.methods

end

section

variable {p q : Pool} {declared : Declared} {ks ks' : List ClassEntry} {ls : List ClassLayout}
  {d : ClassDecl} {ds : List ClassDecl}

theorem lowerClass_flattens (hg : declared.globals.Exact) (hp : p.Sound) {known : List String}
    (hknown : List.Forall₂ p.Names (inherited ks d).properties known)
    (hnodup : (d.methods.map (·.name.text)).Nodup)
    (h : (lowerClass declared ks d).run.run p = (.ok ks', q)) :
    q.Sound ∧ p.Extends q ∧ ∃ k : ClassEntry, ks' = ks ++ [k] ∧
      k.Flattens q (LoweredInto q (Session.envOf declared d)) d (inherited ks d) := by
  rw [lowerClass] at h
  obtain ⟨k, r, hproperties, h⟩ := run_bind_eq_ok.mp h
  obtain ⟨k', r', hmethods, h⟩ := run_bind_eq_ok.mp h
  cases h
  obtain ⟨hr, hext, own, rfl, hown⟩ := lowerProperties_names hp hknown hproperties
  have hglobals : (Session.envOf declared d).globals.Exact := hg
  obtain ⟨hq, hrest, ⟨methods, rfl⟩, hoverrides⟩ :=
    lowerMethods_overrides hglobals hr hnodup hmethods
  refine ⟨hq, hext.trans hrest, _, rfl, rfl, ⟨known, own, ?_, rfl, ?_⟩, ?_⟩
  · exact hknown.imp fun _ _ hs => hs.mono (hext.trans hrest)
  · exact hown.imp fun _ _ hs => hs.mono hrest
  · exact ⟨hoverrides.own, hoverrides.kept⟩

/-- A class starts with the properties of its base. -/
theorem Listed.inherited (hall : List.Forall₂ (ClassEntry.Listed p) ks ls.reverse)
    (hnodup : (ks.map (·.name)).Nodup) (d : ClassDecl) :
    List.Forall₂ p.Names (inherited ks d).properties
      ((d.base.bind fun base => ls.find? (·.name == base.text)).getD {}).properties := by
  have hbase := rel_base (fun _ _ hkl => hkl.name) hall hnodup d
  unfold Lss.inherited
  generalize (d.base.bind fun base => ks.find? (·.name == base.text)) = x,
    (d.base.bind fun base => ls.find? (·.name == base.text)) = y at hbase
  cases hbase with
  | none => exact .nil
  | some hkl => exact hkl.properties

theorem lowerClass_listed (hg : declared.globals.Exact) (hp : p.Sound)
    (hmethods : (d.methods.map (·.name.text)).Nodup)
    (hall : List.Forall₂ (ClassEntry.Listed p) ks ls.reverse) (hnodup : (ks.map (·.name)).Nodup)
    (h : (lowerClass declared ks d).run.run p = (.ok ks', q)) :
    q.Sound ∧ List.Forall₂ (ClassEntry.Listed q) ks' (ClassLayout.extend ls d).reverse := by
  have hknown := Listed.inherited hall hnodup d
  obtain ⟨hq, hext, k, rfl, hflat⟩ := lowerClass_flattens hg hp hknown hmethods h
  refine ⟨hq, ?_⟩
  rw [ClassLayout.extend, List.reverse_cons]
  refine List.rel_append (hall.imp fun _ _ hkl => hkl.mono hext) (.cons ⟨hflat.name, ?_⟩ .nil)
  obtain ⟨known, own, hknown', heq, hown⟩ := hflat.properties
  have hsame : known =
      ((d.base.bind fun base => ls.find? (·.name == base.text)).getD {}).properties := by
    rw [← filterMap_of_names hknown', filterMap_of_names (hknown.imp fun _ _ hs => hs.mono hext)]
  subst hsame
  rw [ClassLayout.properties_derive, heq]
  exact List.rel_append hknown' hown

theorem lowerClasses_listed (hg : declared.globals.Exact) (hp : p.Sound)
    (hmethods : ∀ d ∈ ds, (d.methods.map (·.name.text)).Nodup)
    (hall : List.Forall₂ (ClassEntry.Listed p) ks ls.reverse)
    (hnodup : (ks.map (·.name) ++ ds.map (·.name.text)).Nodup)
    (h : (lowerClasses declared ks ds).run.run p = (.ok ks', q)) :
    q.Sound ∧ List.Forall₂ (ClassEntry.Listed q) ks' (ds.foldl ClassLayout.extend ls).reverse := by
  induction ds generalizing p ks ls with
  | nil =>
    cases h
    exact ⟨hp, hall⟩
  | cons d ds ih =>
    rw [lowerClasses, List.foldlM_cons] at h
    obtain ⟨ks₁, r, hone, h⟩ := run_bind_eq_ok.mp h
    obtain ⟨hr, hall₁⟩ := lowerClass_listed hg hp (hmethods d List.mem_cons_self) hall
      hnodup.of_append_left hone
    refine ih hr (fun d hd => hmethods d (List.mem_cons_of_mem _ hd)) hall₁ ?_ h
    rw [map_eq_of_rel hall₁ fun _ _ hkl => hkl.name, List.map_reverse, ClassLayout.extend,
      List.map_cons, List.reverse_cons, ← List.map_reverse,
      ← map_eq_of_rel hall fun _ _ hkl => hkl.name, List.append_assoc]
    exact hnodup

end

/-! Classes of an order, where each of them is made. -/

theorem inherited_append {ks more : List ClassEntry} {d : ClassDecl}
    (h : ∀ b ∈ d.base, b.text ∈ ks.map (·.name)) :
    inherited (ks ++ more) d = inherited ks d := by
  unfold inherited
  cases hb : d.base with
  | none => rfl
  | some b => rw [Option.bind_some, Option.bind_some, find?_append_left (h b hb)]

theorem inherited_linked (place : String → UInt32) (ks : List ClassEntry) (d : ClassDecl) :
    inherited (ks.map (·.linked place)) d = (inherited ks d).linked place := by
  unfold inherited
  cases d.base with
  | none => rfl
  | some b =>
    rw [Option.bind_some, Option.bind_some, List.find?_map]
    show _ = ClassEntry.linked place _
    have hsame : ((·.name == b.text) ∘ (ClassEntry.linked place) : ClassEntry → Bool) =
        (·.name == b.text) := rfl
    rw [hsame]
    cases ks.find? (·.name == b.text) <;> rfl

theorem lowerClasses_split {p q : Pool} {declared : Declared} {ks ks' : List ClassEntry}
    {ls : List ClassLayout} {d : ClassDecl} {pre post : List ClassDecl}
    (hg : declared.globals.Exact) (hp : p.Sound)
    (hmethods : ∀ e ∈ pre ++ d :: post, (e.methods.map (·.name.text)).Nodup)
    (hall : List.Forall₂ (ClassEntry.Listed p) ks ls.reverse)
    (hnodup : (ks.map (·.name) ++ (pre ++ d :: post).map (·.name.text)).Nodup)
    (h : (lowerClasses declared ks (pre ++ d :: post)).run.run p = (.ok ks', q)) :
    ∃ (ks₁ : List ClassEntry) (k : ClassEntry) (rest : List ClassEntry), ks' = ks₁ ++ k :: rest ∧
      ks₁.map (·.name) = ks.map (·.name) ++ pre.map (·.name.text) ∧
      k.Flattens q (LoweredInto q (Session.envOf declared d)) d (inherited ks₁ d) := by
  rw [lowerClasses, List.foldlM_append] at h
  obtain ⟨ks₁, r, hpre, h⟩ := run_bind_eq_ok.mp h
  rw [List.foldlM_cons] at h
  obtain ⟨ks₂, r', hone, hpost⟩ := run_bind_eq_ok.mp h
  rw [List.map_append, ← List.append_assoc] at hnodup
  obtain ⟨hr, hall₁⟩ := lowerClasses_listed hg hp
    (fun d hd => hmethods d (List.mem_append_left _ hd)) hall hnodup.of_append_left hpre
  have hnames : ks₁.map (·.name) = ks.map (·.name) ++ pre.map (·.name.text) := by
    rw [map_eq_of_rel hall₁ fun _ _ hkl => hkl.name, List.map_reverse,
      ClassLayout.map_name_foldl_extend, List.reverse_append, List.reverse_reverse,
      ← List.map_reverse, ← map_eq_of_rel hall fun _ _ hkl => hkl.name]
  have hfresh := hnodup.of_append_left
  rw [← hnames] at hfresh
  obtain ⟨hr', -, k, rfl, hflat⟩ := lowerClass_flattens hg hr (Listed.inherited hall₁ hfresh d)
    (hmethods d (List.mem_append_right _ List.mem_cons_self)) hone
  have hext : r'.Extends q := ((lowerClasses_interning declared _ post).of_run hpost).extends
  obtain ⟨rest, rfl⟩ := Container.prefix_of_lowerClasses hpost
  refine ⟨ks₁, k, rest, by rw [List.append_assoc]; rfl, hnames, ?_⟩
  exact hflat.imp hext fun m code hlow => hlow.mono hext

namespace ClassLayout

variable {c : Container} {pre post : List ClassDecl} {d : ClassDecl}

/-- Classes that follow do not change what is known of those before. -/
theorem find?_all_append {x : String}
    (hnodup : (c.classes.map (·.name) ++ (pre ++ post).map (·.name.text)).Nodup)
    (hx : x ∈ c.classes.map (·.name) ++ pre.map (·.name.text)) :
    (all c (pre ++ post)).find? (·.name == x) = (all c pre).find? (·.name == x) := by
  obtain ⟨new, hnew, hnames⟩ := foldl_extend post (all c pre)
  rw [all_eq, List.foldl_append, ← all_eq, hnew]
  refine find?_append_right fun hmem => ?_
  obtain ⟨l, hl, rfl⟩ := List.mem_map.mp hmem
  obtain ⟨d, hd, hname⟩ := hnames l hl
  rw [List.map_append, ← List.append_assoc] at hnodup
  exact List.disjoint_of_nodup_append hnodup hx (hname ▸ List.mem_map_of_mem hd)

theorem find?_all
    (hnodup : (c.classes.map (·.name) ++ (pre ++ d :: post).map (·.name.text)).Nodup) :
    (all c (pre ++ d :: post)).find? (·.name == d.name.text) =
      some (derive d (d.base.bind fun b => (all c pre).find? (·.name == b.text))) := by
  rw [List.append_cons] at hnodup ⊢
  rw [find?_all_append hnodup (List.mem_append_right _
    (List.mem_map_of_mem (List.mem_append_right _ List.mem_cons_self))), all_eq,
    List.foldl_append, ← all_eq, List.foldl_cons, List.foldl_nil, extend]
  exact List.find?_cons_of_pos (beq_self_eq_true _)

end ClassLayout

namespace Container

structure Legible (c : Container) : Prop where
  pool : c.pool.Sound
  globals : c.globals.Sound
  nodup : (c.classes.map (·.name)).Nodup
  listed : ∀ k ∈ c.classes, k.Listed c.pool (.ofEntry k c.symbols)
  laid : ∀ k ∈ c.classes, k.Laid c.pool (.ofEntry k c.symbols)

section

variable {c c' : Container} {settings : Settings} {units sources : List SourceUnit}
  {globals : NameTable} {es : List FunctionEntry} {ks : List ClassEntry} {p q : Pool}

theorem Registers.nodup (hc : c.Legible) (h : c.Registers units globals) :
    (c.classes.map (·.name) ++ (c.orderedClasses units).map (·.name.text)).Nodup := by
  have hperm := (ordered_perm h.order).map (·.name.text)
  refine List.Nodup.append hc.nodup (hperm.nodup_iff.mpr h.classes) fun x hold hnew => ?_
  obtain ⟨d, hd, rfl⟩ := List.mem_map.mp hnew
  have hfresh := h.freshClasses d ((mem_orderedClasses h).mp hd)
  rw [findClass?_eq_none] at hfresh
  exact hfresh hold

theorem legible_ofSettings (settings : Settings) : (ofSettings settings).Legible :=
  ⟨sound_ofSettings settings, NameTable.sound_empty, List.nodup_nil, nofun, nofun⟩

theorem Legible.declared (hc : c.Legible) (h : c.Registers units globals) :
    (c.declaredBy settings units globals).globals.Exact :=
  (hc.globals.admitAll h.globals).1.exact

theorem Legible.listed_all (hc : c.Legible) (hcp : c.pool.Extends p) :
    List.Forall₂ (ClassEntry.Listed p) c.classes
      (c.classes.map (ClassLayout.ofEntry · c.symbols)).reverse.reverse := by
  rw [List.reverse_reverse, List.forall₂_map_right_iff, List.forall₂_same]
  exact fun k hk => (hc.listed k hk).mono hcp

theorem Legible.laid_all (hc : c.Legible) (hcp : c.pool.Extends p) :
    List.Forall₂ (ClassEntry.Laid p) c.classes
      (c.classes.map (ClassLayout.ofEntry · c.symbols)).reverse.reverse := by
  rw [List.reverse_reverse, List.forall₂_map_right_iff, List.forall₂_same]
  exact fun k hk => (hc.laid k hk).mono hcp

/-- Each class, old or new, has the properties of its layout. -/
theorem Lowers.listed (hc : c.Legible) (h : c.Lowers settings units globals es ks p q) :
    List.Forall₂ (ClassEntry.Listed q) ks (ClassLayout.all c (c.orderedClasses units)).reverse :=
  (lowerClasses_listed (hc.declared h.registers) (h.interns_left.sound hc.pool)
    (fun d hd => h.registers.methods d ((mem_orderedClasses h.registers).mp hd))
    (hc.listed_all h.interns_left.extends) (h.registers.nodup hc) h.classes).2

/-- And it has the methods of its layout. -/
theorem Lowers.laid (hc : c.Legible) (h : c.Lowers settings units globals es ks p q) :
    List.Forall₂ (ClassEntry.Laid q) ks (ClassLayout.all c (c.orderedClasses units)).reverse :=
  lowerClasses_laid (hc.declared h.registers) isSome_declaredBy
    (h.interns_left.sound hc.pool) (hc.laid_all h.interns_left.extends) (h.registers.nodup hc)
    h.classes

theorem Lowers.class_names (hc : c.Legible) (h : c.Lowers settings units globals es ks p q) :
    ks.map (·.name) =
      c.classes.map (·.name) ++ (c.orderedClasses units).map (·.name.text) := by
  rw [map_eq_of_rel (h.listed hc) fun _ _ hkl => hkl.name, List.map_reverse, ClassLayout.all_eq,
    ClassLayout.map_name_foldl_extend, List.reverse_append, List.reverse_reverse, List.map_reverse,
    List.reverse_reverse, List.map_map]
  rfl

theorem Legible.lowered (hc : c.Legible) (h : c.Lowers settings units globals es ks p q)
    (place : String → UInt32) : ((c.assemble globals (es, ks) q).linked place).Legible := by
  have hext : q.Extends ((c.assemble globals (es, ks) q).linked place).pool := ⟨.refl _, .refl _⟩
  have hq := h.interns_right.sound (h.interns_left.sound hc.pool)
  refine ⟨⟨hq.strings, hq.symbols⟩, (hc.globals.admitAll h.registers.globals).1, ?_, ?_, ?_⟩
  · show ((ks.map (·.linked place)).map (·.name)).Nodup
    rw [List.map_map]
    show (ks.map (·.name)).Nodup
    rw [h.class_names hc]
    exact h.registers.nodup hc
  · intro k hk
    obtain ⟨k, hmem, rfl⟩ := List.mem_map.mp hk
    obtain ⟨l, hkl⟩ := exists_of_mem_left (h.listed hc) hmem
    exact ((hkl.mono hext).linked place).self
  · intro k hk
    obtain ⟨k, hmem, rfl⟩ := List.mem_map.mp hk
    obtain ⟨l, hkl⟩ := exists_of_mem_left (h.laid hc) hmem
    exact ((hkl.mono hext).linked place).self

theorem Grown.legible (h : Grown sources c) : c.Legible := by
  induction h with
  | start settings => exact legible_ofSettings settings
  | session settings units _ hc ih =>
    obtain ⟨globals, es, ks, p, q, hlowers, -, rfl⟩ := compile_iff_lowers.mp hc
    exact ih.lowered hlowers _

/-! A class and its base, as they are declared and as they are compiled. -/

theorem base_of_orderedClasses (h : c.Registers units globals) {d : ClassDecl}
    {pre post : List ClassDecl} (hsplit : c.orderedClasses units = pre ++ d :: post) :
    ∀ b ∈ d.base, b.text ∈ c.classes.map (·.name) ++ pre.map (·.name.text) := by
  intro b hb
  rw [List.mem_append, ← isSome_findClass?, or_comm]
  exact ClassOrder.base_of_ordered h.classes hsplit hb

/-- A class `d` of a container, beside the layouts that the bodies of its methods refer to. -/
structure Carries (c : Container) (declared : Declared) (d : ClassDecl) (k : ClassEntry)
    (l : ClassLayout) : Prop where
  found : c.classes.find? (·.name == d.name.text) = some k
  layout : declared.classes[d.name.text]? = some l
  derived : l = .derive d (d.base.bind fun b => declared.classes[b.text]?)
  properties : (ClassLayout.ofEntry k c.symbols).properties = l.properties
  arities : ∀ x, (ClassLayout.ofEntry k c.symbols).arity? x = l.arity? x
  based : ∀ b ∈ d.base, (c.findClass? b.text).isSome
  distinct : (k.methods.map (·.symbol)).Nodup
  flattens : k.Flattens c.pool (fun m code => ∃ raw, LoweredInto c.pool (Session.envOf declared d)
    m raw ∧ code = raw.linked (Code.placeIn c.targets)) d (inherited c.classes d)

theorem Lowers.layouts (hc : c.Legible) (h : c.Lowers settings units globals es ks p q)
    {d : ClassDecl} (hd : d ∈ newClasses units) :
    ∃ l, (c.declaredBy settings units globals).classes[d.name.text]? = some l ∧
      l = .derive d
        (d.base.bind fun b => (c.declaredBy settings units globals).classes[b.text]?) := by
  obtain ⟨pre, post, hsplit⟩ := List.append_of_mem ((mem_orderedClasses h.registers).mpr hd)
  have hnodup := h.registers.nodup hc
  have hbase := base_of_orderedClasses h.registers hsplit
  simp only [classes_declaredBy]
  rw [hsplit] at hnodup ⊢
  refine ⟨_, ClassLayout.find?_all hnodup, congrArg (ClassLayout.derive d) ?_⟩
  cases hb : d.base with
  | none => rfl
  | some b => exact (ClassLayout.find?_all_append hnodup (hbase b hb)).symm

theorem Lowers.flattens (hc : c.Legible) (h : c.Lowers settings units globals es ks p q)
    {d : ClassDecl} (hd : d ∈ newClasses units) :
    ∃ k, ks.find? (·.name == d.name.text) = some k ∧ (∀ b ∈ d.base, b.text ∈ ks.map (·.name)) ∧
      k.Flattens q (LoweredInto q (Session.envOf (c.declaredBy settings units globals) d)) d
        (inherited ks d) := by
  obtain ⟨pre, post, hsplit⟩ := List.append_of_mem ((mem_orderedClasses h.registers).mpr hd)
  have hnodup := h.registers.nodup hc
  have hbase := base_of_orderedClasses h.registers hsplit
  have hnames := h.class_names hc
  have hmethods : ∀ d ∈ c.orderedClasses units, (d.methods.map (·.name.text)).Nodup :=
    fun d hd => h.registers.methods d ((mem_orderedClasses h.registers).mp hd)
  have hrun := h.classes
  rw [hsplit] at hnodup hnames hmethods hrun
  obtain ⟨ks₁, k, rest, rfl, hfirst, hflat⟩ := lowerClasses_split (hc.declared h.registers)
    (h.interns_left.sound hc.pool) hmethods (hc.listed_all h.interns_left.extends) hnodup hrun
  rw [← hfirst] at hbase
  refine ⟨k, ?_, fun b hb => ?_, ?_⟩
  · rw [← hnames, List.map_append] at hnodup
    rw [find?_append_right fun hmem => List.disjoint_of_nodup_append hnodup hmem ?_]
    · exact List.find?_cons_of_pos (beq_iff_eq.mpr hflat.name)
    · rw [List.map_cons, hflat.name]
      exact List.mem_cons_self
  · rw [List.map_append]
    exact List.mem_append_left _ (hbase b hb)
  · rw [inherited_append hbase]
    exact hflat

/-- An entry and a layout of one name stand side by side. -/
theorem Lowers.beside (hc : c.Legible) (h : c.Lowers settings units globals es ks p q)
    {R : ClassEntry → ClassLayout → Prop} (hname : ∀ k l, R k l → k.name = l.name)
    (hall : List.Forall₂ R ks (ClassLayout.all c (c.orderedClasses units)).reverse) {x : String}
    {k : ClassEntry} {l : ClassLayout} (hk : ks.find? (·.name == x) = some k)
    (hl : (c.declaredBy settings units globals).classes[x]? = some l) : R k l := by
  have hrel := rel_find? (f := fun k : ClassEntry => k.name) (g := fun l : ClassLayout => l.name)
    hname hall x
  have hnodup : ((ClassLayout.all c (c.orderedClasses units)).map (·.name)).Nodup := by
    rw [← List.nodup_reverse, ← List.map_reverse, ← map_eq_of_rel hall hname, h.class_names hc]
    exact h.registers.nodup hc
  rw [find?_reverse_of_nodup hnodup, hk, ← classes_declaredBy, hl] at hrel
  obtain ⟨_, heq, hkl⟩ := exists_of_rel hrel
  cases heq
  exact hkl

theorem Lowers.carries (hc : c.Legible) (h : c.Lowers settings units globals es ks p q)
    {place : String → UInt32}
    (hplace : Code.placeIn ((c.assemble globals (es, ks) q).linked place).targets = place)
    {d : ClassDecl} (hd : d ∈ newClasses units) :
    ∃ k l, ((c.assemble globals (es, ks) q).linked place).Carries
      (c.declaredBy settings units globals) d k l := by
  have hext : q.Extends ((c.assemble globals (es, ks) q).linked place).pool := ⟨.refl _, .refl _⟩
  obtain ⟨l, hl, hderived⟩ := h.layouts hc hd
  obtain ⟨k, hk, hbase, hflat⟩ := h.flattens hc hd
  have hlisted : (k.linked place).Listed q l :=
    (h.beside hc (fun _ _ hkl => hkl.name) (h.listed hc) hk hl).linked place
  have hlaid : (k.linked place).Laid q l :=
    (h.beside hc (fun _ _ hkl => hkl.name) (h.laid hc) hk hl).linked place
  refine ⟨k.linked place, l, ?_, hl, hderived, hlisted.properties_eq, hlaid.alike.methods,
    fun b hb => ?_, hlaid.nodup, ?_⟩
  · show (ks.map (·.linked place)).find? (·.name == d.name.text) = _
    rw [List.find?_map]
    exact congrArg (Option.map (·.linked place)) hk
  · rw [isSome_findClass?]
    show b.text ∈ (ks.map (·.linked place)).map (·.name)
    rw [List.map_map]
    exact hbase b hb
  · rw [hplace]
    show (k.linked place).Flattens _ _ d (inherited (ks.map (·.linked place)) d)
    rw [inherited_linked]
    refine (hflat.linked place).imp hext fun m code => ?_
    rintro ⟨raw, hlow, hcode⟩
    exact ⟨raw, hlow.mono hext, hcode⟩

/-- Each class that units declare has the members that its layout says: those of its base, and its
own behind them or in their place. -/
theorem compile_flattens (hc : Grown sources c)
    (h : (c.compile settings units).container = some c') :
    ∀ d ∈ newClasses units, ∃ k l,
      c'.Carries (c.declaredBy settings units c'.globals) d k l := by
  intro d hd
  obtain ⟨globals, es, ks, p, q, hlowers, -, rfl⟩ := compile_iff_lowers.mp h
  refine hlowers.carries hc.legible ?_ hd
  rw [targets_eq (shape_linked _ _)]

end

def litter : SourceUnit where
  classes := [
    ⟨.identifier "Puppy", some (.identifier "Dog"), [.identifier "age", .identifier "name",
      .identifier "age"], [⟨.identifier "bark", [.identifier "times"], ⟨[], .synthetic⟩⟩]⟩,
    ⟨.identifier "Dog", some (.identifier "Base"), [.identifier "owner"],
      [⟨.identifier "bark", [], ⟨[.return_ (some (.call (.operation .this (.access .member)
          (.name "greet")) [.this] .synthetic)) .synthetic], .synthetic⟩⟩,
        ⟨.identifier "greet", [.identifier "guest"],
          ⟨[.return_ (some (.name "guest")) .synthetic], .synthetic⟩⟩]⟩]

theorem compile_flattens_litter :
    ∃ c d : Container, Grown [base] c ∧ (c.compile {} [litter]).container = some d ∧
      d.classes.map (fun k => (k.name, (ClassLayout.ofEntry k d.symbols).properties)) =
        [("Base", ["name"]), ("Dog", ["name", "owner"]), ("Puppy", ["name", "owner", "age"])] ∧
      ∀ k ∈ newClasses [litter], ∃ e l, d.Carries (c.declaredBy {} [litter] d.globals) k e l := by
  have hrun : ((ofSettings {}).compile {} [base]).container.any fun c =>
      (c.compile {} [litter]).container.any fun d =>
        d.classes.map (fun k => (k.name, (ClassLayout.ofEntry k d.symbols).properties)) ==
          [("Base", ["name"]), ("Dog", ["name", "owner"]),
            ("Puppy", ["name", "owner", "age"])] := by
    decide +kernel
  obtain ⟨c, hc, hrun⟩ := (Option.any_eq_true _ _).mp hrun
  obtain ⟨d, hd, hproperties⟩ := (Option.any_eq_true _ _).mp hrun
  have hgrown : Grown [base] c := .session {} [base] (.start {}) hc
  exact ⟨c, d, hgrown, hd, eq_of_beq hproperties, compile_flattens hgrown hd⟩

end Container

end Lss
