import Lss.Proofs.Closed
import Lss.Proofs.Layouts
import Lss.Proofs.LoopsLowered
import Lss.Proofs.LoopsRead
import Lss.Proofs.Restored

/-!
# Loops over collections restored

Read back and made tidy, compiled code has every loop over a collection that its source has, in its
place: it nests and follows the others as in the source. Of the counters and the bounds that the
loops were compiled with, nothing is left. A loop that was written by hand in just this way may
become one over a collection, too.
-/
namespace Lss

open Library

section

variable {c : Container} {s : Subroutine} {code : Code} {isMethod : Bool} {names : SlotNames}

theorem SubroutineOf.Unfolded.linked (place : String → UInt32) (h : s.Unfolded isMethod code) :
    s.Unfolded isMethod (code.linked place) := by
  obtain ⟨prologue, body, rfl, hprologue, hbody⟩ := h
  refine ⟨_, _, Code.linked_append .., fun i hi => ?_, hbody.linked place⟩
  obtain ⟨j, hj, rfl⟩ := List.mem_map.mp hi
  have hsame : (j.linked place).isPrologue = j.isPrologue := by cases j <;> rfl
  rw [hsame]
  exact hprologue j hj

/-- In compiled code the loops of the source are told apart, and their slots are no parameters. -/
theorem Compiled.unfolded (h : Compiled c isMethod s code) (hs : s.Proper) :
    s.Unfolded isMethod code ∧
      ∀ n, s.LoopSlot isMethod n → isMethod.toNat + s.parameters.length ≤ n := by
  obtain ⟨env, place, raw, rfl, hemit⟩ := h
  obtain ⟨p, q, hp, hrun, -⟩ := hemit.lowered
  have hplain : ∀ b ∈ s.binders, b.name.toList.head? ≠ some '$' := fun b hb =>
    (hs.binders b hb).head_ne_dollar rfl
  refine ⟨?_, fun n hn => hn.start_le (declarations_sorts hrun) fun t ht =>
    (hs.parameters t ht).head_ne_dollar rfl⟩
  rw [hemit.code]
  exact (lowerSubroutine_unfolds hemit.globals hp hs.names hplain hrun).linked place

theorem SlotNames.token_eq_placeholder {n : Nat}
    (h : names.isMethod.toNat + names.parameterCount.toNat ≤ n) :
    names.token n = .identifier (placeholder n) := by
  have hself : ¬ (names.isMethod && n == 0) := by
    intro hself
    obtain ⟨hmethod, hn⟩ := Bool.and_eq_true_iff.mp hself
    rw [hmethod, eq_of_beq hn] at h
    exact absurd (Nat.le_trans (Nat.le_add_right 1 _) h) (Nat.not_succ_le_zero 0)
  rw [token, if_neg hself, if_neg fun hn => absurd hn.2 (Nat.not_lt.mpr h)]
  rfl

/-- A name that code refers to is none of a local. -/
theorem Container.Writable.head_ne_dollar (hc : c.Writable) {text : String} (h : c.Knows text) :
    text.toList.head? ≠ some '$' := by
  have hname : IsName text := by
    cases h with
    | symbol h =>
      rw [NameTable.get?_eq] at h
      exact hc.symbols _ (List.mem_of_getElem? h)
    | global h =>
      rw [NameTable.get?_eq] at h
      exact hc.globals _ (List.mem_of_getElem? h)
    | function h => exact (hc.functions _ h).1
  exact hname.head_ne_dollar rfl

/-- The subroutine that is read back from code has the loops over collections of its source, in
their places, up to declarations in front and a `return` at the end. It has got rid of the slots of
these loops, which were locals when the code was read. -/
def Library.Refolds (l : Library) (names : SlotNames) (s : Subroutine) (code : Code) : Prop :=
  ∃ r ss, l.subroutine s.name.text names code = .ok r ∧ l.statements names code = .ok ss ∧
    r.body.statements = tidy ss ∧
    (∃ folded n, ∃ last ∈ [[], [Flow.return_]], Flow.Folds (Stmt.flows s.completed) folded ∧
      Stmt.flows r.body.statements ++ last = List.replicate n Flow.assign ++ folded) ∧
    ∀ n, s.LoopSlot names.isMethod n → names.token n = .identifier (SlotNames.placeholder n) ∧
      Tidy.Rids (SlotNames.placeholder n) ss

theorem Compiled.refolds (hc : c.Writable) (hs : s.Proper)
    (h : Compiled c names.isMethod s code)
    (hcount : names.parameterCount.toNat = s.parameters.length) :
    (ofContainer c).Refolds names s code := by
  obtain ⟨⟨prologue, body, rfl, hprologue, hbody⟩, hslots⟩ := h.unfolded hs
  have hnames (n : Nat) (hn : s.LoopSlot names.isMethod n) :
      names.token n = .identifier (SlotNames.placeholder n) :=
    SlotNames.token_eq_placeholder (hcount ▸ hslots n hn)
  have hshaped := hbody.shaped fun _ _ => (trivial : True)
  obtain ⟨locals, hresolves⟩ : ∃ locals, ∀ i ∈ body, i.Resolves c locals := by
    obtain ⟨_, _, _, -, -, -, hall⟩ := h.body.forall_mem (fun n i _ hi => hi)
      fun n i hi => Instruction.resolves_of_not_isActive hi
    exact ⟨_, fun i hi => hall i (List.mem_append_right _ hi)⟩
  obtain ⟨b, hb, hlib, hbnames, hlaid, hnotes⟩ := Body.ofCode_ok hshaped.lands (ofContainer c) names
  obtain ⟨ss, hss, hstatements⟩ := (hbody.recovers hlaid hnotes hlib (fun _ => hc.head_ne_dollar)
    (hbnames ▸ hnames) nofun hresolves).statements hlaid
  have hread : (ofContainer c).statements names (prologue ++ body) = .ok ss := by
    rw [Library.statements, Code.dropWhile_prologue hprologue hshaped.not_isPrologue, hb]
    exact hstatements
  obtain ⟨r, hr⟩ := (h.restores names).subroutine s.name.text
  obtain ⟨-, ss', hss', hr'⟩ := subroutine_eq_ok hr
  rw [hread] at hss'
  cases hss'
  obtain ⟨hfolds, hgone⟩ := Tidy.tidy_of_unfolds SlotNames.head_hidden
    (Body.statements_binders hstatements) hss
  obtain ⟨n, last, hlast, hflows⟩ := tidy_flows ss
  rw [← hr'] at hflows
  exact ⟨r, ss, hr, hread, hr', ⟨_, n, last, hlast, hfolds, hflows⟩, fun n hn =>
    ⟨hnames n hn, hgone _ ⟨n, hn, rfl⟩⟩⟩

end

namespace Container

/-- Every function and every method of the sources is read back with its loops, also where a class
has a method from its base. -/
structure RestoresLoops (c : Container) (sources : List SourceUnit) : Prop where
  functions : List.Forall₂ (fun s e => e.name = s.name.text ∧
    (ofContainer c).Refolds { parameterCount := e.parameterCount } s e.code)
      (sources.flatMap (·.functions)) c.functions
  methods : ∀ k ∈ c.classes, ∀ e ∈ k.methods, ∃ d ∈ sources.flatMap (·.classes), ∃ m ∈ d.methods,
    c.symbol e.symbol = .ok m.name.text ∧
      (ofContainer c).Refolds { isMethod := true, parameterCount := e.parameterCount } m e.code
  declared : ∀ d ∈ sources.flatMap (·.classes), ∃ k ∈ c.classes, k.name = d.name.text ∧
    ∀ m ∈ d.methods, ∃ e ∈ k.methods, c.symbol e.symbol = .ok m.name.text ∧
      (ofContainer c).Refolds { isMethod := true, parameterCount := e.parameterCount } m e.code

variable {c : Container} {sources : List SourceUnit}

/-- Whatever sessions make of parsed texts, all loops over collections are restored. -/
theorem Grown.restores_loops (h : Grown sources c)
    (hparsed : ∀ u ∈ sources, ∃ source file, u = (SourceUnit.ofSource source file).1) :
    c.RestoresLoops sources := by
  have hproper : ∀ u ∈ sources, u.Proper := by
    intro u hu
    obtain ⟨source, file, rfl⟩ := hparsed u hu
    exact SourceUnit.ofSource_proper source file
  have hwritable := h.writable hproper
  have hmethod {d : ClassDecl} (hd : d ∈ sources.flatMap (·.classes)) {m : Subroutine}
      (hm : m ∈ d.methods) {e : MethodEntry} (hcode : Compiled c true m e.code) :
      (ofContainer c).Refolds { isMethod := true, parameterCount := e.parameterCount }
        m e.code := by
    obtain ⟨u, hu, hd⟩ := List.mem_flatMap.mp hd
    have hcount : e.parameterCount.toNat = m.parameters.length := by
      obtain ⟨symbol, code⟩ := e
      obtain ⟨count, _, _, hlength, -, rfl, hclosed⟩ := hcode.body
      rw [MethodEntry.parameterCount_prologue symbol hclosed.shaped.not_isPrologue]
      exact hlength
    exact Compiled.refolds hwritable (((hproper u hu).classes d hd).methods m hm) hcode hcount
  refine ⟨?_, fun k hk e he => ?_, fun d hd => ?_⟩
  · have hfunctions : ∀ s ∈ sources.flatMap (·.functions), s.Proper := by
      intro s hs
      obtain ⟨u, hu, hs⟩ := List.mem_flatMap.mp hs
      exact (hproper u hu).functions s hs
    refine ((List.forall₂_and_left _ _).mpr ⟨hfunctions, h.holds.functions⟩).imp ?_
    rintro s e ⟨hs, hname, hcount, hcode⟩
    exact ⟨hname, Compiled.refolds hwritable hs hcode hcount⟩
  · obtain ⟨m, hname, ⟨d, hd, hm⟩, hcode⟩ := (h.holds.classes k hk).methods e he
    exact ⟨d, hd, m, hm, symbol_ok hname, hmethod hd hm hcode⟩
  · obtain ⟨k, hk, hname, hhas⟩ := h.holds.declared d hd
    refine ⟨k, hk, hname, fun m hm => ?_⟩
    obtain ⟨e, he, hsymbol, -, hcode⟩ := hhas m hm
    exact ⟨e, he, symbol_ok hsymbol, hmethod hd hm hcode⟩

/-- A loop over the elements of another one, with the same name for its own. -/
def gathered : String := "function f(a) \x7b foreach (x in a) foreach (x in x) f(x); \x7d"

theorem Grown.restores_loops_gathered :
    ∃ c, ((ofSettings {}).compile {} [(SourceUnit.ofSource gathered none).1]).container = some c ∧
      c.RestoresLoops [(SourceUnit.ofSource gathered none).1] ∧
      c.decompile.unit.text (spaces 0) =
        "function f(param1) \x7b\nforeach (item1 in param1) \x7b\n" ++
          "foreach (item2 in item1) \x7b\nf(item2);\n\x7d\n\x7d\n\x7d\n" := by
  have hrun : ((ofSettings {}).compile {} [(SourceUnit.ofSource gathered none).1]).container.any
      fun c => c.decompile.unit.text (spaces 0) ==
        "function f(param1) \x7b\nforeach (item1 in param1) \x7b\n" ++
          "foreach (item2 in item1) \x7b\nf(item2);\n\x7d\n\x7d\n\x7d\n" := by
    decide +kernel
  obtain ⟨c, hc, htext⟩ := (Option.any_eq_true _ _).mp hrun
  have hgrown : Grown [(SourceUnit.ofSource gathered none).1] c := .session {} _ (.start {}) hc
  exact ⟨c, hc, hgrown.restores_loops (List.forall_mem_singleton.mpr ⟨_, _, rfl⟩), eq_of_beq htext⟩

end Container

end Lss
