import Lss.Proofs.Outlined
import Lss.Proofs.Relinked

/-!
# Separate and joint compilation

Units compiled onto the container of others give, up to the order of its tables, what all of them
give in one session; and they are accepted exactly if all of them are.
-/
namespace Lss

open Lower

theorem map_lowerFunctions {env : Env} {fs : List Subroutine} {es : List FunctionEntry}
    {p q : Pool} (h : (lowerFunctions env fs).run.run p = (.ok es, q)) :
    es.map (fun e => (e.name, e.parameterCount)) =
      fs.map fun f => (f.name.text, Session.parameterCount f) := by
  induction fs generalizing p es with
  | nil =>
    cases h
    rfl
  | cons f fs ih =>
    rw [Session.lowerFunctions_cons, run_bind_eq_ok] at h
    obtain ⟨code, r, -, h⟩ := h
    obtain ⟨es, r', hes, h⟩ := run_bind_eq_ok.mp h
    cases h
    rw [List.map_cons, List.map_cons, ih hes]

namespace Container

/-- The names of units are registered, and their bodies lower to these entries: from the pool of
the container the functions lead to `p`, and the classes from there to `q`. -/
structure Lowers (c : Container) (settings : Settings) (units : List SourceUnit)
    (globals : NameTable) (es : List FunctionEntry) (ks : List ClassEntry) (p q : Pool) :
    Prop where
  registers : c.Registers units globals
  functions : (lowerFunctions { c.declaredBy settings units globals with }
    (newFunctions units)).run.run c.pool = (.ok es, p)
  classes : (lowerClasses (c.declaredBy settings units globals) c.classes
    (c.orderedClasses units)).run.run p = (.ok ks, q)

section

variable {c d : Container} {settings : Settings} {units : List SourceUnit} {globals : NameTable}
  {es : List FunctionEntry} {ks : List ClassEntry} {p q : Pool}

theorem compile_iff_lowers : (c.compile settings units).container = some d ↔
    ∃ globals es ks p q, c.Lowers settings units globals es ks p q ∧
      (c.assemble globals (es, ks) q).Linkable ∧
      d = (c.assemble globals (es, ks) q).linked
        (Code.placeIn (c.assemble globals (es, ks) q).targets) := by
  rw [compile_eq_some_iff]
  constructor
  · rintro ⟨globals, ⟨es, ks⟩, q, hreg, hrun, hlink⟩
    obtain ⟨es', p, hfunctions, hrun⟩ := run_bind_eq_ok.mp hrun
    obtain ⟨ks', q', hclasses, hrun⟩ := run_bind_eq_ok.mp hrun
    cases hrun
    exact ⟨globals, es, ks, p, q, ⟨hreg, hfunctions, hclasses⟩, link_eq_ok.mp hlink⟩
  · rintro ⟨globals, es, ks, p, q, h, hlink⟩
    refine ⟨globals, (es, ks), q, h.registers, ?_, link_eq_ok.mpr hlink⟩
    refine run_bind_eq_ok.mpr ⟨es, p, h.functions, ?_⟩
    exact run_bind_eq_ok.mpr ⟨ks, q, h.classes, rfl⟩

theorem Lowers.interns_left (h : c.Lowers settings units globals es ks p q) : c.pool.Interns p :=
  (lowerFunctions_interning _ _).of_run h.functions

theorem Lowers.interns_right (h : c.Lowers settings units globals es ks p q) : p.Interns q :=
  (lowerClasses_interning _ _ _).of_run h.classes

theorem sound_ofSettings (settings : Settings) : (ofSettings settings).pool.Sound :=
  ⟨NameTable.sound_empty, NameTable.sound_empty⟩

theorem isSome_declaredBy : ∀ k ∈ c.orderedClasses units,
    (c.declaredBy settings units globals).classes[k.name.text]?.isSome :=
  fun _ hk => Session.isSome_layouts hk

/-- What is compiled from nothing outlines its units. -/
theorem Lowers.outlines (h : (ofSettings settings).Lowers settings units globals es ks p q)
    (place : String → UInt32) :
    (((ofSettings settings).assemble globals (es, ks) q).linked place).Outlines settings units := by
  have hsound := (NameTable.sound_empty.admitAll h.registers.globals).1
  have hnodup : (((ofSettings settings).orderedClasses units).map (·.name.text)).Nodup :=
    ((ordered_perm h.registers.order).map _).nodup_iff.mpr h.registers.classes
  have hstart : List.Forall₂ (ClassEntry.Laid p) [] [].reverse := .nil
  have hlaid := lowerClasses_laid hsound.exact isSome_declaredBy
    (h.interns_left.sound (sound_ofSettings settings)) hstart hnodup h.classes
  refine ⟨h.registers, hsound, ?_, ?_⟩
  · rw [← map_lowerFunctions h.functions]
    exact List.map_map
  · refine List.forall₂_reverse_iff.mp ?_
    rw [List.reverse_reverse]
    show List.Forall₂ _ ((ks.map (·.linked place)).map _) _
    rw [List.map_map, List.forall₂_map_left_iff]
    exact hlaid.imp fun k l hkl => (hkl.linked place).alike

end

/-- The bodies of `A` and `B` in one session, in the order in which it lowers them: all functions,
then all classes. -/
structure Halves (settings : Settings) (A B : List SourceUnit) (c : Container)
    (globals : NameTable) (es fs : List FunctionEntry) (ks ls : List ClassEntry)
    (q₁ q₂ q₃ q₄ : Pool) : Prop where
  functions : (lowerFunctions { (ofSettings settings).declaredBy settings (A ++ B) globals with }
    (newFunctions A)).run.run (ofSettings settings).pool = (.ok es, q₁)
  moreFunctions : (lowerFunctions
    { (ofSettings settings).declaredBy settings (A ++ B) globals with }
    (newFunctions B)).run.run q₁ = (.ok fs, q₂)
  classes : (lowerClasses ((ofSettings settings).declaredBy settings (A ++ B) globals) []
    ((ofSettings settings).orderedClasses A)).run.run q₂ = (.ok ks, q₃)
  moreClasses : (lowerClasses ((ofSettings settings).declaredBy settings (A ++ B) globals) ks
    (c.orderedClasses B)).run.run q₃ = (.ok ls, q₄)

section

variable {c : Container} {settings : Settings} {A B : List SourceUnit} {globals : NameTable}
  {es : List FunctionEntry} {ks : List ClassEntry} {p q : Pool}

theorem Outlines.lowers_append (h : c.Outlines settings A) (hB : c.Registers B globals) :
    (ofSettings settings).Lowers settings (A ++ B) globals es ks p q ↔
      ∃ es₁ es₂ ks₁ q₁ q₃, es = es₁ ++ es₂ ∧
        Halves settings A B c globals es₁ es₂ ks₁ ks q₁ p q₃ q := by
  have hfunctions (env : Env) : lowerFunctions env (newFunctions (A ++ B)) = do
      let es₁ ← lowerFunctions env (newFunctions A)
      let es₂ ← lowerFunctions env (newFunctions B)
      return es₁ ++ es₂ := by
    rw [newFunctions_append]
    exact List.mapM_append
  have hclasses (declared : Declared) :
      lowerClasses declared [] ((ofSettings settings).orderedClasses (A ++ B)) =
        lowerClasses declared [] ((ofSettings settings).orderedClasses A) >>= fun ks₁ =>
          lowerClasses declared ks₁ (c.orderedClasses B) := by
    rw [h.orderedClasses_append hB]
    exact List.foldlM_append
  constructor
  · rintro ⟨-, hrun, hrun'⟩
    rw [hfunctions] at hrun
    obtain ⟨es₁, q₁, hes₁, hrun⟩ := run_bind_eq_ok.mp hrun
    obtain ⟨es₂, q₂, hes₂, hrun⟩ := run_bind_eq_ok.mp hrun
    cases hrun
    have hrun' : (lowerClasses _ [] _).run.run p = (.ok ks, q) := hrun'
    rw [hclasses] at hrun'
    obtain ⟨ks₁, q₃, hks₁, hks⟩ := run_bind_eq_ok.mp hrun'
    exact ⟨es₁, es₂, ks₁, q₁, q₃, rfl, hes₁, hes₂, hks₁, hks⟩
  · rintro ⟨es₁, es₂, ks₁, q₁, q₃, rfl, hhalves⟩
    refine ⟨h.registers_iff.mp hB, ?_, ?_⟩
    · rw [hfunctions]
      refine run_bind_eq_ok.mpr ⟨es₁, q₁, hhalves.functions, ?_⟩
      exact run_bind_eq_ok.mpr ⟨es₂, p, hhalves.moreFunctions, rfl⟩
    · show (lowerClasses _ [] _).run.run p = _
      rw [hclasses]
      exact run_bind_eq_ok.mpr ⟨ks₁, q₃, hhalves.classes, hhalves.moreClasses⟩

end

/-- The units `A` compile to `c`: they lower to these entries, and with the places of `t` these are
linked. -/
structure Start (settings : Settings) (A : List SourceUnit) (c : Container)
    (t : Std.TreeMap String Nat) (es : List FunctionEntry) (ks : List ClassEntry) (p q : Pool) :
    Prop where
  lowers : (ofSettings settings).Lowers settings A c.globals es ks p q
  linkable : ((ofSettings settings).assemble c.globals (es, ks) q).Linkable
  targets : ((ofSettings settings).assemble c.globals (es, ks) q).targets = t
  linked : c = ((ofSettings settings).assemble c.globals (es, ks) q).linked (Code.placeIn t)

section

variable {c : Container} {settings : Settings} {A B : List SourceUnit} {globals : NameTable}
  {t : Std.TreeMap String Nat} {es fs es₁ es₂ : List FunctionEntry}
  {ks ls ks₁ ks₂ : List ClassEntry} {p₁ p₂ p₃ p₄ q₁ q₂ q₃ q₄ : Pool}

theorem exists_start (h : ((ofSettings settings).compile settings A).container = some c) :
    ∃ t es ks p q, Start settings A c t es ks p q := by
  obtain ⟨globals, es, ks, p, q, hlowers, hlink, rfl⟩ := compile_iff_lowers.mp h
  exact ⟨_, es, ks, p, q, hlowers, hlink, rfl, rfl⟩

theorem Start.outlines (h : Start settings A c t es ks p₁ p₂) : c.Outlines settings A := by
  rw [h.linked]
  exact h.lowers.outlines _

theorem Start.pool (h : Start settings A c t es ks p₁ p₂) :
    c.pool = ⟨p₂.strings, p₂.symbols, []⟩ := by
  rw [h.linked]
  rfl

theorem Start.sound_left (h : Start settings A c t es ks p₁ p₂) : p₁.Sound :=
  h.lowers.interns_left.sound (sound_ofSettings settings)

theorem Start.sound_right (h : Start settings A c t es ks p₁ p₂) : p₂.Sound :=
  h.lowers.interns_right.sound h.sound_left

theorem Start.extends_pool (h : Start settings A c t es ks p₁ p₂) : p₂.Extends c.pool := by
  rw [h.pool]
  exact ⟨.refl _, .refl _⟩

theorem Start.sound (h : Start settings A c t es ks p₁ p₂) : c.pool.Sound := by
  rw [h.pool]
  exact ⟨h.sound_right.strings, h.sound_right.symbols⟩

/-! The halves follow the bodies of `A` and `B` that were lowered apart. -/

/-- Classes that were linked in `c`, beside those that are lowered again. -/
theorem Start.rel_classes (h : Start settings A c t es₁ ks₁ p₁ p₂)
    (hks : List.Forall₂ (ClassEntry.Corresponds Code.Alike p₂ q₃) ks₁ ks)
    (hp : c.pool.Extends p₃) :
    List.Forall₂ (ClassEntry.Corresponds (Code.Joins t) p₃ q₃) c.classes ks := by
  have hext : p₂.Extends p₃ := h.extends_pool.trans hp
  have hlink := h.linkable.classes
  rw [h.targets] at hlink
  rw [h.linked]
  refine rel_map_left_of_mem hks fun k hk l hkl => ?_
  exact (hkl.linked_left (hlink k hk)).mono (covers_joins t) hext (.refl q₃)

theorem Start.rel_functions (h : Start settings A c t es₁ ks₁ p₁ p₂)
    (hes : List.Forall₂ (FunctionEntry.Corresponds Code.Alike p₁ q₁) es₁ es) :
    List.Forall₂ (FunctionEntry.Corresponds (Code.Joins t) p₁ q₁) c.functions es := by
  have hlink := h.linkable.functions
  rw [h.targets] at hlink
  rw [h.linked]
  exact rel_map_left_of_mem hes fun e he f hef => hef.linked_left (hlink e he)

/-- Units that lower onto the container lower behind its units. -/
theorem Start.exists_halves (h : Start settings A c t es₁ ks₁ p₁ p₂)
    (hB : c.Lowers settings B globals es₂ ks₂ p₃ p₄) :
    ∃ es fs ks ls q₁ q₂ q₃ q₄, Halves settings A B c globals es fs ks ls q₁ q₂ q₃ q₄ := by
  have ho := h.outlines
  have hreg := hB.registers
  have hp₃ := hB.interns_left.sound h.sound
  have hp₄ := hB.interns_right.sound hp₃
  -- every pool on the way is part of the last one
  have hV := hp₄.small
  have hV₄ := p₄.within_vocabulary
  generalize p₄.vocabulary = V at hV hV₄
  have hV₃ := hB.interns_right.extends.within hV₄
  have hVc := hB.interns_left.extends.within hV₃
  have hV₂ := h.extends_pool.within hVc
  have hV₁ := h.lowers.interns_right.extends.within hV₂
  have hV₀ := h.lowers.interns_left.extends.within hV₁
  have h₀ := sound_ofSettings settings
  obtain ⟨es, q₁, hes, htog₁, hW₁, -⟩ :=
    (lowerFunctions_follows (ho.below_append hreg).env (newFunctions A)).run h₀ h₀
      h.lowers.functions hV hV₁ hV₀
  obtain ⟨fs, q₂, hfs, htog₂, hW₂, -⟩ :=
    (lowerFunctions_follows (ho.below_joint hreg).env (newFunctions B)).run h.sound htog₁.right
      hB.functions hV hV₃ hW₁
  obtain ⟨ks, q₃, hks, htog₃, hW₃, hrel⟩ :=
    (lowerClasses_follows covers_alike (ho.below_append hreg)
      isSome_declaredBy .nil).run h.sound_left htog₂.right h.lowers.classes hV hV₂ hW₂
  obtain ⟨ls, q₄, hls, -⟩ :=
    (lowerClasses_follows (covers_joins t) (ho.below_joint hreg)
      isSome_declaredBy (h.rel_classes hrel hB.interns_left.extends)).run hp₃ htog₃.right
      hB.classes hV hV₄ hW₃
  exact ⟨es, fs, ks, ls, q₁, q₂, q₃, q₄, hes, hfs, hks, hls⟩

theorem Halves.sound (hh : Halves settings A B c globals es fs ks ls q₁ q₂ q₃ q₄) :
    q₁.Sound ∧ q₂.Sound ∧ q₃.Sound ∧ q₄.Sound := by
  have h₁ := ((lowerFunctions_interning _ _).of_run hh.functions).sound (sound_ofSettings settings)
  have h₂ := ((lowerFunctions_interning _ _).of_run hh.moreFunctions).sound h₁
  have h₃ := ((lowerClasses_interning _ _ _).of_run hh.classes).sound h₂
  exact ⟨h₁, h₂, h₃, ((lowerClasses_interning _ _ _).of_run hh.moreClasses).sound h₃⟩

/-- The bodies of `A`, lowered with and without `B`. -/
theorem Start.follows (h : Start settings A c t es₁ ks₁ p₁ p₂) (hB : c.Registers B globals)
    (hh : Halves settings A B c globals es fs ks ls q₁ q₂ q₃ q₄) :
    (Pool.Together (ofSettings settings).pool (ofSettings settings).pool p₁ q₁ ∧
      List.Forall₂ (FunctionEntry.Corresponds Code.Alike p₁ q₁) es₁ es) ∧
    Pool.Together p₁ q₂ p₂ q₃ ∧
      List.Forall₂ (ClassEntry.Corresponds Code.Alike p₂ q₃) ks₁ ks := by
  have ho := h.outlines
  have h₀ := sound_ofSettings settings
  constructor
  · exact (lowerFunctions_follows (ho.below_append hB).env (newFunctions A)).both h₀ h₀
      h.lowers.functions hh.functions
  · exact (lowerClasses_follows covers_alike (ho.below_append hB)
      isSome_declaredBy .nil).both h.sound_left hh.sound.2.1 h.lowers.classes hh.classes

/-- Units that lower behind those of the container lower onto it. -/
theorem Start.exists_lowers (h : Start settings A c t es₁ ks₁ p₁ p₂) (hB : c.Registers B globals)
    (hh : Halves settings A B c globals es fs ks ls q₁ q₂ q₃ q₄) :
    ∃ es₂ ks₂ p₃ p₄, c.Lowers settings B globals es₂ ks₂ p₃ p₄ := by
  have ho := h.outlines
  obtain ⟨hq₁, -, hq₃, hq₄⟩ := hh.sound
  obtain ⟨⟨htog₁, -⟩, htog₂, hks⟩ := h.follows hB hh
  -- every pool on the way is part of the last one
  have hV := hq₄.small
  have hV₄ := q₄.within_vocabulary
  generalize q₄.vocabulary = V at hV hV₄
  have hV₃ := ((lowerClasses_interning _ _ _).of_run hh.moreClasses).extends.within hV₄
  have hV₂ := ((lowerClasses_interning _ _ _).of_run hh.classes).extends.within hV₃
  have hV₁ := ((lowerFunctions_interning _ _).of_run hh.moreFunctions).extends.within hV₂
  have hW₁ := htog₁.back V (htog₁.extendsRight.within hV₁) hV₁
  have hW₂ := htog₂.back V hW₁ hV₃
  have hWc : c.pool.Within V := by
    rw [h.pool]
    exact ⟨hW₂.strings, hW₂.symbols⟩
  obtain ⟨es₂, p₃, hes, htog₃, hW₃, -⟩ :=
    (lowerFunctions_follows (ho.joint_below hB).env (newFunctions B)).run hq₁ h.sound
      hh.moreFunctions hV hV₂ hWc
  have howners (d : ClassDecl) (hd : d ∈ c.orderedClasses B) :
      ((ofSettings settings).declaredBy settings (A ++ B)
        globals).classes[d.name.text]?.isSome := by
    refine isSome_declaredBy d ?_
    rw [ho.orderedClasses_append hB]
    exact List.mem_append_right _ hd
  have hrel := h.rel_classes hks htog₃.extendsRight
  obtain ⟨ks₂, p₄, hks, -⟩ :=
    (lowerClasses_follows (covers_joins t).flip (ho.joint_below hB) howners
      (List.Forall₂.flip (hrel.imp fun _ _ hkl => hkl.flip))).run hq₃ htog₃.right hh.moreClasses hV
      hV₄ hW₃
  exact ⟨es₂, ks₂, p₃, p₄, hB, hes, hks⟩

/-- Apart or in one session, the units come to the same but for what is linked already. -/
theorem Start.joins (h : Start settings A c t es₁ ks₁ p₁ p₂)
    (hB : c.Lowers settings B globals es₂ ks₂ p₃ p₄)
    (hh : Halves settings A B c globals es fs ks ls q₁ q₂ q₃ q₄) :
    (c.assemble globals (es₂, ks₂) p₄).Joins t
      ((ofSettings settings).assemble globals (es ++ fs, ls) q₄) := by
  have ho := h.outlines
  have hreg := hB.registers
  obtain ⟨hq₁, hq₂, hq₃, -⟩ := hh.sound
  obtain ⟨⟨-, hes⟩, -, hks⟩ := h.follows hreg hh
  obtain ⟨htog₃, hfs⟩ := (lowerFunctions_follows (ho.below_joint hreg).env (newFunctions B)).both
    h.sound hq₁ hB.functions hh.moreFunctions
  obtain ⟨htog₄, hls⟩ := (lowerClasses_follows (covers_joins t) (ho.below_joint hreg)
    isSome_declaredBy (h.rel_classes hks htog₃.extendsLeft)).both htog₃.left hq₃ hB.classes
    hh.moreClasses
  have hq₂₄ : q₂.Extends q₄ :=
    ((lowerClasses_interning _ _ _).of_run hh.classes).extends.trans htog₄.extendsRight
  have hp₁₃ : p₁.Extends p₃ :=
    h.lowers.interns_right.extends.trans (h.extends_pool.trans htog₃.extendsLeft)
  -- from here on, all is said of the last pools
  have hfirst := (h.rel_functions hes).imp fun _ _ hef => hef.mono (covers_joins t)
    (hp₁₃.trans htog₄.extendsLeft) (htog₃.extendsRight.trans hq₂₄)
  have hsecond := hfs.imp fun _ _ hef =>
    (hef.joins t).mono (covers_joins t) htog₄.extendsLeft hq₂₄
  have hwarnings {p : Pool} : p.Extends ⟨p.strings, p.symbols, []⟩ := ⟨.refl _, .refl _⟩
  refine ⟨?_, ?_, rfl, ?_, ?_⟩
  · rw [h.linked]
    rfl
  · rw [h.linked]
    rfl
  · exact (List.rel_append hfirst hsecond).imp fun _ _ hef =>
      hef.mono (covers_joins t) hwarnings hwarnings
  · exact hls.imp fun _ _ hkl => hkl.mono (covers_joins t) hwarnings hwarnings

/-- Where functions of `A` lie does not depend on `B`. -/
theorem Start.places (h : Start settings A c t es₁ ks₁ p₁ p₂)
    (hB : c.Lowers settings B globals es₂ ks₂ p₃ p₄) (f : String) (hf : t[f]?.isSome) :
    (c.assemble globals (es₂, ks₂) p₄).targets[f]?.isSome ∧
      Code.placeIn (c.assemble globals (es₂, ks₂) p₄).targets f = Code.placeIn t f := by
  have hprefix : ((ofSettings settings).assemble c.globals (es₁, ks₁) p₂).shape <+:
      (c.assemble globals (es₂, ks₂) p₄).shape := by
    have hlinked : c.shape = ((ofSettings settings).assemble c.globals (es₁, ks₁) p₂).shape := by
      rw [h.linked]
      exact shape_linked _ _
    rw [← hlinked]
    exact ⟨_, List.map_append.symm⟩
  have hnodup : ((c.assemble globals (es₂, ks₂) p₄).shape.map (·.1)).Nodup := by
    have hnames : es₂.map (·.name) = (newFunctions B).map (·.name.text) := by
      have := congrArg (List.map Prod.fst) (map_lowerFunctions hB.functions)
      simpa [List.map_map, Function.comp_def] using this
    have hnodup :=
      h.outlines.nodup_functions_iff.mpr ⟨hB.registers.functions, hB.registers.freshFunctions⟩
    rw [List.map_append, ← h.outlines.function_names, ← hnames, ← List.map_append] at hnodup
    rw [shape, List.map_map]
    exact hnodup
  rw [← h.targets] at hf ⊢
  exact placeIn_targets hprefix hnodup hf

theorem Start.linkable_iff (h : Start settings A c t es₁ ks₁ p₁ p₂)
    (hB : c.Lowers settings B globals es₂ ks₂ p₃ p₄)
    (hh : Halves settings A B c globals es fs ks ls q₁ q₂ q₃ q₄) :
    (c.assemble globals (es₂, ks₂) p₄).Linkable ↔
      ((ofSettings settings).assemble globals (es ++ fs, ls) q₄).Linkable :=
  (h.joins hB hh).linkable_iff fun f hf => (h.places hB f hf).1

theorem Start.named_eq (h : Start settings A c t es₁ ks₁ p₁ p₂)
    (hB : c.Lowers settings B globals es₂ ks₂ p₃ p₄)
    (hh : Halves settings A B c globals es fs ks ls q₁ q₂ q₃ q₄) :
    let apart := c.assemble globals (es₂, ks₂) p₄
    let joint := (ofSettings settings).assemble globals (es ++ fs, ls) q₄
    (apart.linked (Code.placeIn apart.targets)).named =
      (joint.linked (Code.placeIn joint.targets)).named := by
  intro apart joint
  have hjoins : apart.Joins t joint := h.joins hB hh
  rw [← hjoins.targets_eq]
  exact hjoins.named_eq fun f hf => (h.places hB f hf).2

end

variable {c : Container} {settings : Settings} {A : List SourceUnit}

/-- Compiling units onto the container of others is accepted exactly if compiling all of them in one
session is, and up to places in the tables of strings and symbols it comes to the same. -/
theorem compile_append (hA : ((ofSettings settings).compile settings A).container = some c)
    (B : List SourceUnit) :
    (c.compile settings B).container.map named =
      ((ofSettings settings).compile settings (A ++ B)).container.map named := by
  obtain ⟨t, es₁, ks₁, p₁, p₂, h⟩ := exists_start hA
  have ho := h.outlines
  ext n
  rw [Option.map_eq_some_iff, Option.map_eq_some_iff]
  constructor
  · rintro ⟨d, hd, rfl⟩
    obtain ⟨globals, es₂, ks₂, p₃, p₄, hB, hlink, rfl⟩ := compile_iff_lowers.mp hd
    obtain ⟨es, fs, ks, ls, q₁, q₂, q₃, q₄, hh⟩ := h.exists_halves hB
    refine ⟨_, compile_iff_lowers.mpr ⟨globals, es ++ fs, ls, q₂, q₄, ?_,
      (h.linkable_iff hB hh).mp hlink, rfl⟩, (h.named_eq hB hh).symm⟩
    exact (ho.lowers_append hB.registers).mpr ⟨es, fs, ks, q₁, q₃, rfl, hh⟩
  · rintro ⟨d, hd, rfl⟩
    obtain ⟨globals, all, ls, q₂, q₄, hall, hlink, rfl⟩ := compile_iff_lowers.mp hd
    have hreg := ho.registers_iff.mpr hall.registers
    obtain ⟨es, fs, ks, q₁, q₃, rfl, hh⟩ := (ho.lowers_append hreg).mp hall
    obtain ⟨es₂, ks₂, p₃, p₄, hB⟩ := h.exists_lowers hreg hh
    exact ⟨_, compile_iff_lowers.mpr ⟨globals, es₂, ks₂, p₃, p₄, hB,
      (h.linkable_iff hB hh).mpr hlink, rfl⟩, h.named_eq hB hh⟩

/-- A function and a class, and a unit that calls the one and derives from the other. -/
def base : SourceUnit where
  functions := [⟨.identifier "welcome", [.identifier "guest"],
    ⟨[.return_ (some (.literal ⟨.string, "\"hello\"", .synthetic⟩)) .synthetic], .synthetic⟩⟩]
  classes := [⟨.identifier "Base", none, [.identifier "name"], [⟨.identifier "greet", [],
    ⟨[.return_ (some (.call (.name "welcome")
      [.literal ⟨.string, "\"stranger\"", .synthetic⟩] .synthetic)) .synthetic], .synthetic⟩⟩]⟩]

def derived : SourceUnit where
  functions := [⟨.identifier "main", [],
    ⟨[.expr (.call (.name "welcome")
      [.literal ⟨.string, "\"friend\"", .synthetic⟩] .synthetic),
      .return_ (some (.construct (.identifier "Derived") (some []) .synthetic)) .synthetic],
      .synthetic⟩⟩]
  classes := [⟨.identifier "Derived", some (.identifier "Base"), [.identifier "title"],
    [⟨.identifier "rename", [.identifier "to"],
      ⟨[.assign (.operation .this (.access .member) (.name "title")) (.name "to")],
        .synthetic⟩⟩]⟩]

/-- The string of the method comes before that of `main`, or behind it. -/
theorem compile_append_base_derived :
    ∃ c d e : Container, ((ofSettings {}).compile {} [base]).container = some c ∧
      (c.compile {} [derived]).container = some d ∧
      ((ofSettings {}).compile {} ([base] ++ [derived])).container = some e ∧
      d.strings.toList = ["hello", "stranger", "friend"] ∧
      e.strings.toList = ["hello", "friend", "stranger"] ∧ d.named = e.named := by
  have hrun : ((ofSettings {}).compile {} [base]).container.any fun c =>
      (c.compile {} [derived]).container.any fun d =>
        d.strings.toList == ["hello", "stranger", "friend"] := by
    decide +kernel
  have hjoint : ((ofSettings {}).compile {} ([base] ++ [derived])).container.any fun e =>
      e.strings.toList == ["hello", "friend", "stranger"] := by
    decide +kernel
  obtain ⟨c, hc, hrun⟩ := (Option.any_eq_true _ _).mp hrun
  obtain ⟨d, hd, hstrings⟩ := (Option.any_eq_true _ _).mp hrun
  obtain ⟨e, he, hstrings'⟩ := (Option.any_eq_true _ _).mp hjoint
  have happend := compile_append hc [derived]
  rw [hd, he] at happend
  exact ⟨c, d, e, hc, hd, he, eq_of_beq hstrings, eq_of_beq hstrings', Option.some.inj happend⟩

end Container

end Lss
