import Lss.Proofs.FollowedUnit
import Lss.Proofs.Integrity

/-!
# Layouts of compiled classes

Compiled classes tell their methods and how many parameters each has. That is what their
declarations say, so code that refers to classes cannot tell which of the two a layout is from.
-/
namespace Lss

open Lower

/-! Layouts by name. -/

namespace ClassLayout

def extend (ls : List ClassLayout) (d : ClassDecl) : List ClassLayout :=
  derive d (d.base.bind fun base => ls.find? (·.name == base.text)) :: ls

theorem all_eq (c : Container) (ds : List ClassDecl) :
    all c ds = ds.foldl extend (c.classes.map (ofEntry · c.symbols)).reverse := rfl

theorem map_name_foldl_extend (ds : List ClassDecl) (ls : List ClassLayout) :
    (ds.foldl extend ls).map (·.name) = (ds.map (·.name.text)).reverse ++ ls.map (·.name) := by
  induction ds generalizing ls with
  | nil => rfl
  | cons d ds ih =>
    rw [List.foldl_cons, ih, List.map_cons, List.reverse_cons, List.append_assoc]
    rfl

variable {l m : ClassLayout} {ls ms : List ClassLayout}

theorem Alike.symm (h : l.Alike m) : m.Alike l := ⟨h.name.symm, fun x => (h.methods x).symm⟩

theorem Alike.derive (d : ClassDecl) {l m : Option ClassLayout} (h : Option.Rel Alike l m) :
    (derive d l).Alike (derive d m) := by
  have hbase (x : String) : (l.getD {}).methods[x]? = (m.getD {}).methods[x]? := by
    cases h with
    | none => rfl
    | some h => exact h.methods x
  refine ⟨rfl, ?_⟩
  unfold ClassLayout.derive arity?
  dsimp only
  generalize (l.getD {}).methods = a, (m.getD {}).methods = b at hbase
  induction d.methods generalizing a b with
  | nil => exact hbase
  | cons n ns ih =>
    refine ih _ _ fun x => ?_
    rw [Std.TreeMap.getElem?_insert, Std.TreeMap.getElem?_insert, hbase]

theorem Alike.foldl_extend (h : List.Forall₂ Alike ls ms) (ds : List ClassDecl) :
    List.Forall₂ Alike (ds.foldl extend ls) (ds.foldl extend ms) := by
  induction ds generalizing ls ms with
  | nil => exact h
  | cons d ds ih =>
    refine ih (.cons (Alike.derive d ?_) h)
    cases d.base with
    | none => exact .none
    | some base => exact rel_find? (fun _ _ hlm => hlm.name) h base.text

end ClassLayout

theorem Session.getElem?_layouts (c : Container) (ds : List ClassDecl) (name : String) :
    (layouts c ds)[name]? = (ClassLayout.all c ds).find? (·.name == name) := by
  unfold layouts
  induction ClassLayout.all c ds with
  | nil => simp
  | cons l ls ih =>
    rw [List.foldr_cons, Std.TreeMap.getElem?_insert, List.find?_cons, ih]
    by_cases h : l.name = name
    · simp [h]
    · have hcmp : compare l.name name ≠ .eq := fun hc => h (Std.LawfulEqCmp.eq_of_compare hc)
      rw [if_neg hcmp, beq_eq_false_iff_ne.mpr h]

/-! What the methods of an entry say. -/

theorem Code.takeWhile_linked (place : String → UInt32) (code : Code) :
    (code.linked place).takeWhile Instruction.isPrologue =
      code.takeWhile Instruction.isPrologue := by
  have hsame (i : Instruction) : (i.linked place).isPrologue = i.isPrologue := by cases i <;> rfl
  have hkept {i : Instruction} (h : i.isPrologue = true) : i.linked place = i := by
    cases i <;> first | rfl | cases h
  induction code with
  | nil => rfl
  | cons i code ih =>
    rw [Code.linked_cons, List.takeWhile_cons, List.takeWhile_cons, hsame, ih]
    split
    · next hi => rw [hkept hi]
    · rfl

theorem BodyOf.parameterCount {P : Nat → Instruction → Prop} {s : Subroutine} {code : Code}
    (h : BodyOf P true s code) (symbol : SymbolId) :
    MethodEntry.parameterCount ⟨symbol, code⟩ = Session.parameterCount s := by
  obtain ⟨count, extra, body, hcount, -, rfl, hbody⟩ := h
  rw [MethodEntry.parameterCount_prologue symbol hbody.shaped.not_isPrologue]
  have hlt := count.toNat_lt
  rw [Session.parameterCount, ← hcount, Nat.min_eq_left (by omega), UInt8.ofNat_toNat]

structure ClassEntry.Laid (q : Pool) (k : ClassEntry) (l : ClassLayout) : Prop where
  name : k.name = l.name
  nodup : (k.methods.map (·.symbol)).Nodup
  counted : ∀ e ∈ k.methods, ∃ x, q.symbols.get? e.symbol.index = some x ∧
    l.arity? x = some e.parameterCount
  complete : ∀ x n, l.arity? x = some n → ∃ e ∈ k.methods, q.symbols.get? e.symbol.index = some x

namespace ClassLayout

variable {k : ClassEntry} {symbols : NameTable}

def counts (k : ClassEntry) (symbols : NameTable) : List (String × UInt8) :=
  k.methods.filterMap fun m => (symbols.get? m.symbol.index).map (·, m.parameterCount)

theorem mem_counts {x : String} {n : UInt8} : (x, n) ∈ counts k symbols ↔
    ∃ e ∈ k.methods, symbols.get? e.symbol.index = some x ∧ e.parameterCount = n := by
  simp [counts, List.mem_filterMap]

theorem methods_ofEntry (k : ClassEntry) (symbols : NameTable) :
    (ofEntry k symbols).methods =
      (counts k symbols).foldl (fun m x => m.insert x.1 x.2) {} := by
  rw [counts, List.foldl_filterMap, ofEntry]
  show List.foldl _ _ _ = _
  congr 1
  funext m e
  cases symbols.get? e.symbol.index <;> rfl

theorem mem_counts_of_arity? {x : String} {n : UInt8}
    (h : (ofEntry k symbols).arity? x = some n) : (x, n) ∈ counts k symbols := by
  rw [arity?, methods_ofEntry] at h
  rcases mem_of_foldl_insert (f := fun x : String × UInt8 => x.1) (g := fun x => x.2) h with
    h | ⟨⟨_, _⟩, hmem, rfl, rfl⟩
  · simp at h
  · exact hmem

theorem isSome_arity?_of_mem_counts {x : String} {n : UInt8} (h : (x, n) ∈ counts k symbols) :
    ((ofEntry k symbols).arity? x).isSome := by
  rw [arity?, methods_ofEntry]
  exact isSome_foldl_insert (f := fun x : String × UInt8 => x.1) (g := fun x => x.2)
    (Or.inr ⟨(x, n), h, rfl⟩)

end ClassLayout

namespace ClassEntry

variable {p q : Pool} {k : ClassEntry} {l : ClassLayout}

theorem Laid.mono (hpq : p.Extends q) (h : k.Laid p l) : k.Laid q l := by
  refine ⟨h.name, h.nodup, fun e he => ?_, fun x n hx => ?_⟩
  · obtain ⟨x, hx, hcount⟩ := h.counted e he
    exact ⟨x, hpq.symbols.get? hx, hcount⟩
  · obtain ⟨e, he, hname⟩ := h.complete x n hx
    exact ⟨e, he, hpq.symbols.get? hname⟩

/-- A compiled class has the layout of its declaration. -/
theorem Laid.alike (h : k.Laid q l) : (ClassLayout.ofEntry k q.symbols).Alike l := by
  refine ⟨h.name, fun x => ?_⟩
  have hright {x : String} {n : UInt8}
      (hx : (ClassLayout.ofEntry k q.symbols).arity? x = some n) : l.arity? x = some n := by
    obtain ⟨e, he, hname, rfl⟩ :=
      ClassLayout.mem_counts.mp (ClassLayout.mem_counts_of_arity? hx)
    obtain ⟨y, hy, hcount⟩ := h.counted e he
    cases hname.symm.trans hy
    exact hcount
  cases hl : l.arity? x with
  | none =>
    rw [Option.eq_none_iff_forall_ne_some]
    intro n hn
    rw [hright hn] at hl
    cases hl
  | some n =>
    obtain ⟨e, he, hname⟩ := h.complete x n hl
    have hmem : (x, e.parameterCount) ∈ ClassLayout.counts k q.symbols :=
      ClassLayout.mem_counts.mpr ⟨e, he, hname, rfl⟩
    obtain ⟨n', hn'⟩ :=
      Option.isSome_iff_exists.mp (ClassLayout.isSome_arity?_of_mem_counts hmem)
    rw [hn', ← hl, hright hn']

/-- The methods alone. -/
theorem Laid.of_methods {k' : ClassEntry} {l' : ClassLayout} (h : k.Laid q l)
    (hname : k'.name = l'.name) (hk : k'.methods = k.methods)
    (hl : ∀ x, l'.arity? x = l.arity? x) : k'.Laid q l' := by
  refine ⟨hname, ?_, ?_, ?_⟩
  · rw [hk]
    exact h.nodup
  · rw [hk]
    intro e he
    obtain ⟨x, hx, hcount⟩ := h.counted e he
    exact ⟨x, hx, by rw [hl, hcount]⟩
  · intro x n hx
    rw [hl] at hx
    rw [hk]
    exact h.complete x n hx

theorem Laid.linked (h : k.Laid q l) (place : String → UInt32) : (k.linked place).Laid q l := by
  have hcount (e : MethodEntry) : (e.linked place).parameterCount = e.parameterCount := by
    unfold MethodEntry.parameterCount MethodEntry.linked
    rw [Code.takeWhile_linked]
  refine ⟨h.name, ?_, fun e he => ?_, fun x n hx => ?_⟩
  · rw [ClassEntry.linked, List.map_map]
    exact h.nodup
  · obtain ⟨e, hmem, rfl⟩ := List.mem_map.mp he
    rw [hcount]
    exact h.counted e hmem
  · obtain ⟨e, he, hname⟩ := h.complete x n hx
    exact ⟨e.linked place, List.mem_map_of_mem he, hname⟩

end ClassEntry

namespace Session

variable {m e : MethodEntry} {ms : List MethodEntry}

theorem nodup_putMethod (h : (ms.map (·.symbol)).Nodup) :
    ((putMethod m ms).map (·.symbol)).Nodup := by
  induction ms with
  | nil => exact List.nodup_singleton _
  | cons n ns ih =>
    rw [List.map_cons, List.nodup_cons] at h
    unfold putMethod
    split
    · next heq =>
      rw [List.map_cons, List.nodup_cons, ← heq]
      exact h
    · next hne =>
      rw [List.map_cons, List.nodup_cons]
      refine ⟨fun hmem => ?_, ih h.2⟩
      obtain ⟨e, he, heq⟩ := List.mem_map.mp hmem
      rcases mem_putMethod he with rfl | he
      · exact hne heq.symm
      · exact h.1 (heq ▸ List.mem_map_of_mem he)

/-- Besides the new method only others are left. -/
theorem eq_or_ne_of_mem_putMethod (h : (ms.map (·.symbol)).Nodup) (he : e ∈ putMethod m ms) :
    e = m ∨ (e ∈ ms ∧ e.symbol ≠ m.symbol) := by
  by_cases hsymbol : e.symbol = m.symbol
  · exact .inl (List.inj_on_of_nodup_map (nodup_putMethod h) he (self_mem_putMethod m ms) hsymbol)
  · refine .inr ⟨(mem_putMethod he).resolve_left fun heq => hsymbol ?_, hsymbol⟩
    rw [heq]

end Session

namespace ClassLayout

def withMethod (l : ClassLayout) (m : Subroutine) : ClassLayout :=
  { l with methods := l.methods.insert m.name.text (Session.parameterCount m) }

theorem arity?_withMethod (l : ClassLayout) (m : Subroutine) (x : String) :
    (l.withMethod m).arity? x =
      if m.name.text = x then some (Session.parameterCount m) else l.arity? x := by
  rw [arity?, withMethod, Std.TreeMap.getElem?_insert]
  simp only [Std.LawfulEqCmp.compare_eq_iff_eq]
  rfl

end ClassLayout

theorem ClassEntry.Laid.putMethod {q : Pool} {k : ClassEntry} {l : ClassLayout} {m : Subroutine}
    {e : MethodEntry} (hq : q.Sound) (h : k.Laid q l)
    (hname : q.symbols.get? e.symbol.index = some m.name.text)
    (hcount : e.parameterCount = Session.parameterCount m) :
    ({ k with methods := Session.putMethod e k.methods } : ClassEntry).Laid q (l.withMethod m) := by
  have hother {e' : MethodEntry} (hne : e'.symbol ≠ e.symbol) {x : String}
      (hx : q.symbols.get? e'.symbol.index = some x) : m.name.text ≠ x := by
    rintro rfl
    exact hne (congrArg SymbolId.mk (hq.symbols.get?_inj hx hname))
  refine ⟨h.name, Session.nodup_putMethod h.nodup, fun e' he => ?_, fun x n hx => ?_⟩
  · rcases Session.eq_or_ne_of_mem_putMethod h.nodup he with rfl | ⟨he, hne⟩
    · exact ⟨m.name.text, hname, by rw [ClassLayout.arity?_withMethod, if_pos rfl, hcount]⟩
    · obtain ⟨x, hx, hcount⟩ := h.counted e' he
      exact ⟨x, hx, by rw [ClassLayout.arity?_withMethod, if_neg (hother hne hx), hcount]⟩
  · by_cases heq : m.name.text = x
    · exact ⟨e, Session.self_mem_putMethod e _, heq ▸ hname⟩
    · rw [ClassLayout.arity?_withMethod, if_neg heq] at hx
      obtain ⟨e', he, hname'⟩ := h.complete x n hx
      refine ⟨e', Session.mem_putMethod_of_ne he fun hsame => heq ?_, hname'⟩
      rw [hsame, hname] at hname'
      exact Option.some.inj hname'

/-! Lowering classes. -/

namespace Lower

variable {α β : Type} {p q : Pool} {f : Lower α}

theorem Meets.quiet {Q : Pool → α → Prop} (h : ∀ p, Meets p f Q)
    (hQ : ∀ p q a, p.Extends q → Q p a → Q q a) : Meets p (quiet f) Q := by
  intro hp a q ha
  rw [run_quiet] at ha
  generalize hrun : f.run.run ⟨p.strings, p.symbols, []⟩ = r at ha
  obtain ⟨_ | a, r⟩ := r
  · cases ha
  · cases ha
    obtain ⟨hr, hext, hq⟩ := h ⟨p.strings, p.symbols, []⟩ ⟨hp.strings, hp.symbols⟩ a r hrun
    exact ⟨⟨hr.strings, hr.symbols⟩, ⟨hext.strings, hext.symbols⟩,
      hQ r _ a ⟨.refl _, .refl _⟩ hq⟩

theorem Meets.foldlM {I : Pool → α → Prop} {step : α → β → Lower α}
    (hstep : ∀ p a b, I p a → Meets p (step a b) I) (bs : List β) {a : α} (ha : I p a) :
    Meets p (bs.foldlM step a) I := by
  induction bs generalizing p a with
  | nil => exact .pure ha
  | cons b bs ih =>
    rw [List.foldlM_cons]
    exact .bind (hstep p a b ha) fun _ _ _ ha => ih ha

/-- What a contract says, from sound tables to sound tables. -/
theorem Meets.sound {Q : Pool → α → Prop} (h : Meets p f Q) (hi : Interning f) (hp : p.Sound)
    {a : α} (hrun : f.run.run p = (.ok a, q)) : q.Sound ∧ p.Extends q ∧ Q q a := by
  obtain ⟨-, hext, hq⟩ := h ⟨hp.strings.exact, hp.symbols.exact⟩ a q hrun
  exact ⟨(hi.of_run hrun).sound hp, hext, hq⟩

end Lower

section

variable {p q : Pool} {k k' : ClassEntry} {l : ClassLayout} {env : Env} {declared : Declared}

theorem lowerProperty_meets (k : ClassEntry) (t : Token) :
    Meets p (lowerProperty k t) fun _ k' => k'.name = k.name ∧ k'.methods = k.methods := by
  unfold lowerProperty
  refine .bind (.quiet (fun _ => .symbol t.text) fun _ _ _ h hs => h.symbols.get? hs)
    fun _ s _ _ => .pure ?_
  cases k.hasProperty s <;> exact ⟨rfl, rfl⟩

theorem lowerMethod_meets (hg : env.globals.Exact) (howner : env.owner.isSome) (k : ClassEntry)
    (m : Subroutine) :
    Meets p (lowerMethod env k m) fun q k' => ∃ e : MethodEntry,
      q.symbols.get? e.symbol.index = some m.name.text ∧
      e.parameterCount = Session.parameterCount m ∧
      k' = { k with methods := Session.putMethod e k.methods } := by
  unfold lowerMethod
  refine .bind (.quiet (fun _ => .symbol m.name.text) fun _ _ _ h hs => h.symbols.get? hs)
    fun q s _ hs => ?_
  have hbody (p : Pool) : Meets p (lowerSubroutine env m) fun _ code =>
      MethodEntry.parameterCount ⟨s, code⟩ = Session.parameterCount m := by
    refine (lowerSubroutine_meets hg m).imp fun _ code _ h => ?_
    rw [howner] at h
    exact h.parameterCount s
  exact .bind (.quiet hbody fun _ _ _ _ h => h) fun q' code hq hcount =>
    .pure ⟨⟨s, code⟩, hq.symbols.get? hs, hcount, rfl⟩

/-- Methods in the class as they are in the layout. -/
theorem lowerMethods_laid (hg : env.globals.Exact) (howner : env.owner.isSome) (hp : p.Sound)
    {ms : List Subroutine} (hk : k.Laid p l)
    (h : (ms.foldlM (lowerMethod env) k : Lower ClassEntry).run.run p = (.ok k', q)) :
    q.Sound ∧ p.Extends q ∧ k'.Laid q (ms.foldl ClassLayout.withMethod l) := by
  induction ms generalizing p k l with
  | nil =>
    cases h
    exact ⟨hp, .refl _, hk⟩
  | cons m ms ih =>
    rw [List.foldlM_cons] at h
    obtain ⟨k₁, r, hone, h⟩ := run_bind_eq_ok.mp h
    obtain ⟨hr, hext, e, hname, hcount, rfl⟩ :=
      (lowerMethod_meets hg howner k m).sound (lowerMethod_interning env k m) hp hone
    have hone := (hk.mono hext).putMethod hr hname hcount
    obtain ⟨hq, hrest, hlaid⟩ := ih hr hone h
    exact ⟨hq, hext.trans hrest, hlaid⟩

end

namespace ClassLayout

theorem foldl_withMethod (ms : List Subroutine) (l : ClassLayout) :
    ms.foldl withMethod l = { l with
      methods := ms.foldl (fun ms m => ms.insert m.name.text (Session.parameterCount m))
        l.methods } := by
  induction ms generalizing l with
  | nil => rfl
  | cons m ms ih => exact ih (l.withMethod m)

end ClassLayout

/-- What is found by name is the same from both ends, if names are different. -/
theorem find?_reverse_of_nodup {α : Type} {f : α → String} {as : List α}
    (h : (as.map f).Nodup) (name : String) :
    as.reverse.find? (f · == name) = as.find? (f · == name) := by
  cases hfind : as.find? (f · == name) with
  | none =>
    rw [List.find?_eq_none] at hfind ⊢
    exact fun a ha => hfind a (List.mem_reverse.mp ha)
  | some a =>
    have hmem := List.mem_of_find?_eq_some hfind
    have hname : f a = name := by simpa using List.find?_some hfind
    have hsome : (as.reverse.find? (f · == name)).isSome := by
      rw [List.find?_isSome]
      exact ⟨a, List.mem_reverse.mpr hmem, by simpa using hname⟩
    obtain ⟨b, hb⟩ := Option.isSome_iff_exists.mp hsome
    have hname' : f b = name := by simpa using List.find?_some hb
    have hmem' := List.mem_reverse.mp (List.mem_of_find?_eq_some hb)
    rw [hb, List.inj_on_of_nodup_map h hmem' hmem (hname'.trans hname.symm)]

section

variable {p q : Pool} {declared : Declared} {ks ks' : List ClassEntry} {ls : List ClassLayout}

theorem Laid.map_name (hall : List.Forall₂ (ClassEntry.Laid p) ks ls) :
    ks.map (·.name) = ls.map (·.name) :=
  map_eq_of_rel hall fun _ _ hkl => hkl.name

/-- Classes that are related to layouts of their names have bases that are. -/
theorem rel_base {R : ClassEntry → ClassLayout → Prop} (hname : ∀ k l, R k l → k.name = l.name)
    (hall : List.Forall₂ R ks ls.reverse) (hnodup : (ks.map (·.name)).Nodup) (d : ClassDecl) :
    Option.Rel R (d.base.bind fun base => ks.find? (·.name == base.text))
      (d.base.bind fun base => ls.find? (·.name == base.text)) := by
  have hls : (ls.map (·.name)).Nodup := by
    rw [map_eq_of_rel hall hname, List.map_reverse, List.nodup_reverse] at hnodup
    exact hnodup
  cases d.base with
  | none => exact .none
  | some base =>
    have := rel_find? (f := fun k : ClassEntry => k.name) (g := fun l : ClassLayout => l.name)
      hname hall base.text
    rw [find?_reverse_of_nodup hls] at this
    exact this

/-- A class starts with the layout of its base. -/
theorem Laid.inherited (hall : List.Forall₂ (ClassEntry.Laid p) ks ls.reverse)
    (hnodup : (ks.map (·.name)).Nodup) (d : ClassDecl) :
    (inherited ks d).Laid p
      { (d.base.bind fun base => ls.find? (·.name == base.text)).getD {} with
        name := d.name.text } := by
  have hbase := rel_base (fun _ _ hkl => hkl.name) hall hnodup d
  unfold Lss.inherited
  generalize (d.base.bind fun base => ks.find? (·.name == base.text)) = x,
    (d.base.bind fun base => ls.find? (·.name == base.text)) = y at hbase
  cases hbase with
  | none =>
    refine ⟨rfl, List.nodup_nil, fun e he => ?_, fun x n hx => ?_⟩
    · cases he
    · simp [ClassLayout.arity?] at hx
  | some hkl => exact hkl.of_methods rfl rfl fun _ => rfl

theorem lowerClass_laid (hg : declared.globals.Exact) {d : ClassDecl}
    (howner : declared.classes[d.name.text]?.isSome) (hp : p.Sound)
    (hall : List.Forall₂ (ClassEntry.Laid p) ks ls.reverse) (hnodup : (ks.map (·.name)).Nodup)
    (h : (lowerClass declared ks d).run.run p = (.ok ks', q)) :
    q.Sound ∧ List.Forall₂ (ClassEntry.Laid q) ks' (ClassLayout.extend ls d).reverse := by
  have hstart := Laid.inherited hall hnodup d
  rw [lowerClass] at h
  obtain ⟨k, r, hproperties, h⟩ := run_bind_eq_ok.mp h
  have hmeets : Meets p (d.properties.foldlM lowerProperty (inherited ks d)) fun _ k =>
      k.name = d.name.text ∧ k.methods = (inherited ks d).methods := by
    refine .foldlM (fun _ k t hk => ?_) d.properties ⟨rfl, rfl⟩
    refine (lowerProperty_meets k t).imp fun _ k' _ hk' => ?_
    exact ⟨hk'.1.trans hk.1, hk'.2.trans hk.2⟩
  obtain ⟨hr, hext, hname, hmethods⟩ :=
    hmeets.sound (Interning.foldlM lowerProperty_interning _ _) hp hproperties
  have hk : k.Laid r { (d.base.bind fun base => ls.find? (·.name == base.text)).getD {} with
      name := d.name.text } :=
    (hstart.mono hext).of_methods hname hmethods fun _ => rfl
  obtain ⟨k', r', hlow, h⟩ := run_bind_eq_ok.mp h
  cases h
  have hglobals : (Session.envOf declared d).globals.Exact := hg
  obtain ⟨hq, hrest, hk'⟩ := lowerMethods_laid hglobals howner hr hk hlow
  refine ⟨hq, ?_⟩
  rw [ClassLayout.extend, List.reverse_cons]
  refine List.rel_append (hall.imp fun _ _ hkl => hkl.mono (hext.trans hrest)) (.cons ?_ .nil)
  rw [ClassLayout.foldl_withMethod] at hk'
  exact hk'.of_methods hk'.name rfl fun _ => rfl

theorem lowerClasses_laid (hg : declared.globals.Exact) {ds : List ClassDecl}
    (howner : ∀ d ∈ ds, declared.classes[d.name.text]?.isSome) (hp : p.Sound)
    (hall : List.Forall₂ (ClassEntry.Laid p) ks ls.reverse)
    (hnodup : (ks.map (·.name) ++ ds.map (·.name.text)).Nodup)
    (h : (lowerClasses declared ks ds).run.run p = (.ok ks', q)) :
    List.Forall₂ (ClassEntry.Laid q) ks' (ds.foldl ClassLayout.extend ls).reverse := by
  induction ds generalizing p ks ls with
  | nil =>
    cases h
    exact hall
  | cons d ds ih =>
    rw [lowerClasses, List.foldlM_cons] at h
    obtain ⟨ks₁, r, hone, h⟩ := run_bind_eq_ok.mp h
    obtain ⟨hr, hall₁⟩ :=
      lowerClass_laid hg (howner d List.mem_cons_self) hp hall hnodup.of_append_left hone
    refine ih (fun d hd => howner d (List.mem_cons_of_mem _ hd)) hr hall₁ ?_ h
    rw [Laid.map_name hall₁, List.map_reverse, ClassLayout.extend, List.map_cons,
      List.reverse_cons, ← List.map_reverse, ← Laid.map_name hall, List.append_assoc]
    exact hnodup

end

end Lss
