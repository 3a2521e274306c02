import Lss.Lifting.Unit
import Lss.Proofs.Structured

/-!
# Sources restored

What compilation made of units is read back without failures, and every body has the control
skeleton that it had in its source.
-/
namespace Lss

open Library

theorem Code.dropWhile_prologue {prologue body : Code} (hprologue : ∀ i ∈ prologue, i.isPrologue)
    (hbody : ∀ i ∈ body, ¬ i.isPrologue) :
    (prologue ++ body).dropWhile Instruction.isPrologue = body := by
  rw [List.dropWhile_append_of_pos hprologue]
  cases body with
  | nil => rfl
  | cons i body => simp [hbody i List.mem_cons_self]

/-- What all of the code is read as, from its start to its end. -/
theorem Body.Recovers.statements {b : Body} {code : Code} {Q : List Stmt → Prop}
    (hl : b.Laid code) (h : b.Recovers code Q code) : ∃ ss, Q ss ∧ b.statements = .ok ss := by
  have hread := h [] [] code.length (by simp) (Nat.le_refl _) (Code.clear_self _ _)
  obtain ⟨ss, hss, hregion⟩ := hread.whole
  refine ⟨ss, hss, ?_⟩
  have hsize : b.code.size = code.length := by
    rw [hl.toArray]
    rfl
  rw [List.nil_append, List.length_nil] at hregion
  unfold Body.statements
  rw [hsize, hregion]
  rfl

theorem Shaped.statements {c : Container} {locals : Nat} {sk : List Skeleton} {code : Code}
    (h : Shaped (Instruction.Resolves c locals) sk code) (names : SlotNames) :
    ∃ b ss, Body.ofCode (ofContainer c) names code = .ok b ∧ b.statements = .ok ss ∧
      Stmt.skeletons ss = sk := by
  obtain ⟨b, hb, hlib, -, hlaid, hnotes⟩ := Body.ofCode_ok h.lands (ofContainer c) names
  obtain ⟨ss, hss, hstatements⟩ := (h.recovers hlaid hnotes hlib).statements hlaid
  exact ⟨b, ss, hb, hstatements, hss⟩

/-- The code of a subroutine, without its prologue, is read back as statements of the same
skeleton. -/
def Library.Restores (l : Library) (names : SlotNames) (s : Subroutine) (code : Code) : Prop :=
  ∃ b ss, Body.ofCode l names (code.dropWhile Instruction.isPrologue) = .ok b ∧
    b.statements = .ok ss ∧ Stmt.skeletons ss = Stmt.skeletons s.completed

theorem Compiled.restores {c : Container} {isMethod : Bool} {s : Subroutine} {code : Code}
    (h : Compiled c isMethod s code) (names : SlotNames) :
    (ofContainer c).Restores names s code := by
  obtain ⟨count, extra, body, -, -, rfl, hbody⟩ := h.body
  have hshaped := hbody.shaped
  unfold Restores
  rw [Code.dropWhile_prologue (fun i hi => Code.isPrologue_of_mem_prologue hi)
    hshaped.not_isPrologue]
  exact hshaped.statements names

namespace Library

variable {l : Library}

theorem Restores.subroutine {names : SlotNames} {s : Subroutine} {code : Code}
    (h : l.Restores names s code) (name : String) : ∃ r, l.subroutine name names code = .ok r := by
  obtain ⟨b, ss, hb, hss, -⟩ := h
  refine ⟨⟨.identifier name, names.parameters, ⟨tidy ss, .synthetic⟩⟩, ?_⟩
  unfold Library.subroutine
  rw [hb]
  show (b.statements >>= _) = _
  rw [hss]
  rfl

theorem Progress.failures_add {α : Type} {r : Except DecompileError α} (h : ∃ a, r = .ok a)
    (p : Progress α) (owner : Option String) (name : String) :
    (p.add owner name r).failures = p.failures := by
  obtain ⟨a, rfl⟩ := h
  rfl

theorem failures_foldl {α β : Type} {f : Progress α → β → Progress α} {xs : List β}
    (h : ∀ p, ∀ x ∈ xs, (f p x).failures = p.failures) (p : Progress α) :
    (xs.foldl f p).failures = p.failures := by
  induction xs generalizing p with
  | nil => rfl
  | cons x xs ih =>
    have hx := h p x List.mem_cons_self
    rw [List.foldl_cons, ih fun q y hy => h q y (List.mem_cons_of_mem x hy), hx]

end Library

theorem ClassShape.properties_subset (k : ClassEntry) (base : Option (Nat × ClassEntry)) :
    (ofEntry k base).properties ⊆ k.properties := by
  cases base with
  | none => exact List.Subset.refl _
  | some b => exact List.filter_sublist.subset

namespace Container

variable {c d : Container} {sources units : List SourceUnit}

theorem mem_zip_shapes {k : ClassEntry} {shape : ClassShape}
    (h : (k, shape) ∈ c.classes.zip c.shapes) :
    k ∈ c.classes ∧ ∃ base, shape = .ofEntry k base := by
  obtain ⟨i, hi, heq⟩ := List.mem_iff_getElem.mp h
  rw [List.getElem_zip, Prod.mk.injEq] at heq
  obtain ⟨rfl, rfl⟩ := heq
  refine ⟨List.getElem_mem _, ?_⟩
  simp only [shapes, List.getElem_map, List.getElem_zip]
  exact ⟨_, rfl⟩

theorem symbol_ok {s : SymbolId} {name : String} (h : c.symbols.get? s.index = some name) :
    c.symbol s = .ok name := by
  unfold symbol NameTable.resolve
  rw [h]

theorem Holds.failures_addFunction (h : c.Holds sources) (p : Progress Subroutine)
    (e : FunctionEntry) (he : e ∈ c.functions) :
    ((ofContainer c).addFunction p e).failures = p.failures := by
  obtain ⟨s, -, hs⟩ := h.exists_bears he
  refine Progress.failures_add ?_ p none e.name
  exact (hs.code.restores _).subroutine e.name

theorem Holds.failures_addClass (h : c.Holds sources) (p : Progress ClassDecl)
    (x : ClassEntry × ClassShape) (hx : x ∈ c.classes.zip c.shapes) :
    ((ofContainer c).addClass p x).failures = p.failures := by
  obtain ⟨k, shape⟩ := x
  obtain ⟨hk, base, rfl⟩ := mem_zip_shapes hx
  have hmade := h.classes k hk
  have hproperty (p : Progress Token) (s : SymbolId)
      (hs : s ∈ (ClassShape.ofEntry k base).properties) :
      ((ofContainer c).addProperty k.name p s).failures = p.failures := by
    have hsome := hmade.properties s (ClassShape.properties_subset k base hs)
    obtain ⟨name, hname⟩ := Option.isSome_iff_exists.mp hsome
    refine Progress.failures_add ⟨.identifier name, ?_⟩ p _ _
    rw [show (ofContainer c).container.symbol s = .ok name from symbol_ok hname]
  have hmethod (p : Progress Subroutine) (x : MethodEntry × Nat) (hx : x.1 ∈ k.methods) :
      ((ofContainer c).addMethod k.name p x).failures = p.failures := by
    obtain ⟨m, hname, -, hcomp⟩ := hmade.methods x.1 hx
    refine Progress.failures_add ?_ p _ _
    unfold methodSubroutine
    rw [show (ofContainer c).container.symbol x.1.symbol = .ok m.name.text from symbol_ok hname]
    exact (hcomp.restores _).subroutine _
  simp only [addClass]
  rw [failures_foldl fun p x hx => hmethod p x ?_]
  · exact failures_foldl hproperty { failures := p.failures }
  · obtain ⟨i, -, hi⟩ := List.mem_filterMap.mp hx
    obtain ⟨e, he, rfl⟩ := Option.map_eq_some_iff.mp hi
    rw [List.getElem?_toArray] at he
    exact List.mem_of_getElem? he

/-- Nothing is lost when a container is read back. -/
theorem Holds.failures (h : c.Holds sources) : c.decompile.failures = [] := by
  simp only [decompile]
  rw [failures_foldl h.failures_addClass, failures_foldl h.failures_addFunction]
  rfl

/-- Every body of the sources is read back with its skeleton, and nothing is left out. -/
structure Restored (c : Container) (sources : List SourceUnit) : Prop where
  failures : c.decompile.failures = []
  functions : List.Forall₂ (fun s e => e.name = s.name.text ∧
    (ofContainer c).Restores { parameterCount := e.parameterCount } s e.code)
      (sources.flatMap (·.functions)) c.functions
  methods : ∀ decl ∈ sources.flatMap (·.classes), ∃ k ∈ c.classes, k.name = decl.name.text ∧
    ∀ m ∈ decl.methods, ∃ e ∈ k.methods, c.symbol e.symbol = .ok m.name.text ∧
      (ofContainer c).Restores { isMethod := true, parameterCount := e.parameterCount } m e.code

/-- Compiled control flow is reconstructed, whatever container the units are added to. -/
theorem compile_restored {settings : Settings} (hc : c.Grown sources)
    (h : (c.compile settings units).container = some d) : d.Restored (sources ++ units) := by
  have hd := hc.holds.compile h
  refine ⟨hd.failures, ?_, fun decl hdecl => ?_⟩
  · exact hd.functions.imp fun s e he => ⟨he.name, he.code.restores _⟩
  · obtain ⟨k, hk, hname, hhas⟩ := hd.declared decl hdecl
    refine ⟨k, hk, hname, fun m hm => ?_⟩
    obtain ⟨e, he, hsymbol, -, hcomp⟩ := hhas m hm
    exact ⟨e, he, symbol_ok hsymbol, hcomp.restores _⟩

theorem compile_restored_loops :
    ∃ d, ((ofSettings {}).compile { lineNumbers := true } [callee, caller]).container = some d ∧
      d.functions.length = 2 ∧ d.Restored [callee, caller] := by
  have hrun : ((ofSettings {}).compile { lineNumbers := true } [callee, caller]).container.any
      (·.functions.length = 2) := by
    decide +kernel
  obtain ⟨d, hd, hlen⟩ := (Option.any_eq_true _ _).mp hrun
  exact ⟨d, hd, of_decide_eq_true hlen, compile_restored (.start {}) hd⟩

end Container

end Lss
