import Lss.Proofs.Staged

/-!
# Containers that accumulate

Compiling onto a container adds to it and changes nothing that it held: tables, functions and
classes of the old container come first in the new one, and old call targets lead to the same
functions. This is so for every container without calls by name, whoever made it.
-/
namespace Lss

open Lower

def Instruction.isByName : Instruction → Bool
  | .unresolvedCall _ _ => true
  | _ => false

namespace Container

structure Resolved (c : Container) : Prop where
  functions : ∀ e ∈ c.functions, ∀ i ∈ e.code, i.isByName = false
  classes : ∀ k ∈ c.classes, ∀ e ∈ k.methods, ∀ i ∈ e.code, i.isByName = false

structure Accumulates (c d : Container) : Prop where
  major : d.major = c.major
  minor : d.minor = c.minor
  strings : c.strings.Extends d.strings
  symbols : c.symbols.Extends d.symbols
  globals : c.globals.Extends d.globals
  functions : c.functions <+: d.functions
  classes : c.classes <+: d.classes
  calls : ∀ t i, c.functionAt? t = some i → d.functionAt? t = some i

end Container

/-! Linking leaves finished code alone. -/

namespace Code

theorem isByName_of_mem_linked {place : String → UInt32} {code : Code} {i : Instruction}
    (h : i ∈ Code.linked place code) : i.isByName = false := by
  obtain ⟨j, -, rfl⟩ := List.mem_map.mp h
  cases j <;> rfl

theorem linked_of_resolved {code : Code} (h : ∀ i ∈ code, i.isByName = false)
    (place : String → UInt32) : code.linked place = code :=
  linked_eq_self fun _ _ hmem => Bool.noConfusion (h _ hmem)

end Code

/-! Functions and classes only intern. -/

theorem lowerFunctions_interning (env : Env) (fs : List Subroutine) :
    Interning (lowerFunctions env fs) := by
  induction fs with
  | nil => exact .pure []
  | cons f fs ih =>
    rw [Session.lowerFunctions_cons]
    exact (lowerSubroutine_interning f).quiet.bind fun _ => ih.bind fun _ => .pure _

theorem lowerProperty_interning (k : ClassEntry) (t : Token) : Interning (lowerProperty k t) :=
  (Interning.symbol t.text).quiet.bind fun _ => .pure _

theorem lowerMethod_interning (env : Env) (k : ClassEntry) (m : Subroutine) :
    Interning (lowerMethod env k m) :=
  (Interning.symbol m.name.text).quiet.bind fun _ =>
    (lowerSubroutine_interning m).quiet.bind fun _ => .pure _

theorem lowerClass_interning (declared : Declared) (ks : List ClassEntry) (d : ClassDecl) :
    Interning (lowerClass declared ks d) :=
  (Interning.foldlM lowerProperty_interning _ _).bind fun _ =>
    (Interning.foldlM (lowerMethod_interning _) _ _).bind fun _ => .pure _

theorem lowerClasses_interning (declared : Declared) (ks : List ClassEntry) (ds : List ClassDecl) :
    Interning (lowerClasses declared ks ds) :=
  .foldlM (lowerClass_interning declared) ds ks

namespace NameTable

theorem extends_of_admit {names : List Token} {t u : NameTable}
    (h : names.foldlM (fun t g => t.admit? g.text) t = some u) : t.Extends u := by
  induction names generalizing t with
  | nil =>
    cases h
    exact .refl _
  | cons name names ih =>
    rw [List.foldlM_cons] at h
    obtain ⟨grown, hgrown, h⟩ := Option.bind_eq_some_iff.mp h
    obtain ⟨i, hi⟩ := admit?_eq_some.mp hgrown
    have hone := extends_intern t name.text
    rw [hi] at hone
    exact hone.trans (ih h)

end NameTable

namespace Container

variable {c d : Container} {settings : Settings} {units : List SourceUnit}

theorem resolved_linked (place : String → UInt32) (c : Container) : (c.linked place).Resolved := by
  constructor
  · intro e he
    obtain ⟨e, -, rfl⟩ := List.mem_map.mp he
    exact fun i hi => Code.isByName_of_mem_linked hi
  · intro k hk e he
    obtain ⟨k, -, rfl⟩ := List.mem_map.mp hk
    obtain ⟨e, -, rfl⟩ := List.mem_map.mp he
    exact fun i hi => Code.isByName_of_mem_linked hi

theorem Resolved.linked_functions (h : c.Resolved) (place : String → UInt32) :
    c.functions.map (·.linked place) = c.functions := by
  rw [List.map_congr_left (g := id), List.map_id]
  intro e he
  rw [FunctionEntry.linked, Code.linked_of_resolved (h.functions e he)]
  rfl

theorem Resolved.linked_classes (h : c.Resolved) (place : String → UInt32) :
    c.classes.map (·.linked place) = c.classes := by
  rw [List.map_congr_left (g := id), List.map_id]
  intro k hk
  have hmethods : k.methods.map (·.linked place) = k.methods := by
    rw [List.map_congr_left (g := id), List.map_id]
    intro e he
    rw [MethodEntry.linked, Code.linked_of_resolved (h.classes k hk e he)]
    rfl
  rw [ClassEntry.linked, hmethods]
  rfl

/-- Whatever compilation gives has no calls by name. -/
theorem resolved_of_compile (h : (c.compile settings units).container = some d) : d.Resolved := by
  obtain ⟨_, _, _, -, -, hlink⟩ := compile_eq_some_iff.mp h
  rw [link_eq hlink]
  exact resolved_linked _ _

/-! Lowering units only adds. -/

theorem lowerUnits_interning (c : Container) (settings : Settings) (units : List SourceUnit)
    (globals : NameTable) : Interning (c.lowerUnits settings units globals) :=
  (lowerFunctions_interning _ _).bind fun _ =>
    (lowerClasses_interning _ _ _).bind fun _ => .pure _

theorem prefix_of_lowerClasses {declared : Declared} {ks ks' : List ClassEntry}
    {ds : List ClassDecl} {p q : Pool}
    (h : (lowerClasses declared ks ds).run.run p = (.ok ks', q)) : ks <+: ks' := by
  induction ds generalizing ks p with
  | nil =>
    cases h
    exact List.prefix_refl _
  | cons d ds ih =>
    rw [lowerClasses, List.foldlM_cons] at h
    obtain ⟨ks₁, r, hone, h⟩ := run_bind_eq_ok.mp h
    -- a class goes behind those that are there
    rw [lowerClass] at hone
    obtain ⟨k, _, -, hone⟩ := run_bind_eq_ok.mp hone
    obtain ⟨k', _, -, hone⟩ := run_bind_eq_ok.mp hone
    cases hone
    exact (List.prefix_append ks [k']).trans (ih h)

/-! Places of functions. -/

theorem functionOffsets_isPrefix (h : c.functions <+: d.functions) :
    c.functionOffsets <+: d.functionOffsets := by
  have hbefore : c.functionOffsets =
      (List.range c.functions.length).map fun k => wrap (d.before k) := by
    rw [functionOffsets_eq]
    refine List.map_congr_left fun k hk => ?_
    rw [before_eq h (List.mem_range.mp hk)]
  rw [hbefore, functionOffsets_eq]
  refine List.IsPrefix.map _ ?_
  rw [List.prefix_iff_eq_take, List.length_range, List.take_range, Nat.min_eq_left h.length_le]

/-- A container keeps all that it has when units are compiled onto it. -/
theorem compile_accumulates (hc : c.Resolved)
    (h : (c.compile settings units).container = some d) : c.Accumulates d := by
  obtain ⟨globals, lowered, q, hreg, hrun, hlink⟩ := compile_eq_some_iff.mp h
  obtain ⟨es, ks⟩ := lowered
  have hpool : c.pool.Extends q :=
    ((lowerUnits_interning c settings units globals).of_run hrun).extends
  have hclasses : c.classes <+: ks := by
    obtain ⟨_, _, -, hrun⟩ := run_bind_eq_ok.mp hrun
    obtain ⟨_, _, hlow, hrun⟩ := run_bind_eq_ok.mp hrun
    cases hrun
    exact prefix_of_lowerClasses hlow
  have heq := link_eq hlink
  have hfunctions : c.functions <+: d.functions := by
    rw [heq, ← hc.linked_functions (Code.placeIn (c.assemble globals (es, ks) q).targets)]
    exact (List.prefix_append c.functions es).map _
  exact
    { major := by rw [heq]; rfl
      minor := by rw [heq]; rfl
      strings := by rw [heq]; exact hpool.strings
      symbols := by rw [heq]; exact hpool.symbols
      globals := by rw [heq]; exact NameTable.extends_of_admit hreg.globals
      functions := hfunctions
      classes := by
        rw [heq, ← hc.linked_classes (Code.placeIn (c.assemble globals (es, ks) q).targets)]
        exact hclasses.map _
      calls := fun t i hi => (functionOffsets_isPrefix hfunctions).findIdx?_eq_some hi }

theorem compile_accumulates_callee_caller :
    ∃ c d : Container, c.Resolved ∧ c.functionAt? 0 = some 0 ∧
      (c.compile { lineNumbers := true } [caller]).container = some d ∧ c.Accumulates d := by
  have hrun : ((ofSettings {}).compile {} [callee]).container.any fun c =>
      c.functionAt? 0 == some 0 &&
        (c.compile { lineNumbers := true } [caller]).container.isSome := by
    decide +kernel
  obtain ⟨c, hc, hspec⟩ := (Option.any_eq_true _ _).mp hrun
  obtain ⟨hfirst, hsome⟩ := Bool.and_eq_true_iff.mp hspec
  obtain ⟨d, hd⟩ := Option.isSome_iff_exists.mp hsome
  have hresolved := resolved_of_compile hc
  exact ⟨c, d, hresolved, eq_of_beq hfirst, hd, compile_accumulates hresolved hd⟩

end Container

end Lss
