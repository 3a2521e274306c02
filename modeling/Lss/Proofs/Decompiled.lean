import Lss.Lifting.Unit
import Lss.Proofs.Reprinted
import Lss.Proofs.Tidied

/-!
# Decompiled units

Whatever code a container holds, the unit that it is read back as is formed. So its text means that
unit: it parses without complaint, to the same declarations.
-/
namespace Lss

namespace Body

/-- An instruction is noted only if it is a branch back that closes a loop. -/
theorem noteBack_eq_ok {b d : Body} {i : Nat} {instruction : Instruction}
    (h : b.noteBack i instruction = .ok d) : d = b ∨ ∃ kind distance t,
      instruction = .branch kind distance ∧ kind ≠ .ifFalse ∧ t ≤ i ∧
      d = { b with backEdges := b.backEdges.insert t (i :: b.backEdges.getD t []) } := by
  unfold noteBack at h
  split at h
  case h_3 =>
    cases h
    exact Or.inl rfl
  all_goals
    split at h
    · cases h
    · next t _ =>
      split at h
      · next hle =>
        cases h
        exact Or.inr ⟨_, _, t, rfl, by simp, hle, rfl⟩
      · cases h
        exact Or.inl rfl

theorem noteBack_same {b d : Body} {i : Nat} {instruction : Instruction}
    (h : b.noteBack i instruction = .ok d) : d.library = b.library ∧ d.code = b.code := by
  obtain rfl | ⟨_, _, _, -, -, -, rfl⟩ := noteBack_eq_ok h
  · exact ⟨rfl, rfl⟩
  · exact ⟨rfl, rfl⟩

/-- Noting loops changes nothing else. -/
theorem noteAll_eq_ok {b d : Body} {i : Nat} {code : Code} (h : b.noteAll i code = .ok d) :
    ∃ e, d = { b with backEdges := e } := by
  induction code generalizing b i with
  | nil =>
    cases h
    exact ⟨d.backEdges, rfl⟩
  | cons instruction code ih =>
    unfold noteAll at h
    split at h
    · cases h
    · next hb' =>
      obtain ⟨e, rfl⟩ := ih h
      obtain rfl | ⟨_, _, _, -, -, -, rfl⟩ := noteBack_eq_ok hb'
      · exact ⟨e, rfl⟩
      · exact ⟨e, rfl⟩

theorem noteAll_same {b d : Body} {i : Nat} {code : Code} (h : b.noteAll i code = .ok d) :
    d.library = b.library ∧ d.code = b.code := by
  obtain ⟨e, rfl⟩ := noteAll_eq_ok h
  exact ⟨rfl, rfl⟩

theorem ofCode_same {l : Library} {names : SlotNames} {code : Code} {b : Body}
    (h : ofCode l names code = .ok b) : b.library = l ∧ b.code = code.toArray :=
  noteAll_same h

end Body

namespace Library

variable {c : Container} {α β : Type}

theorem parameters_isName (names : SlotNames) : ∀ t ∈ names.parameters, t.IsName := by
  intro t ht
  obtain ⟨p, hp, rfl⟩ := List.mem_map.mp ht
  have := List.mem_range.mp hp
  exact names.isName_parameter (by omega) (by omega)

theorem subroutine_formed (hc : c.Writable) {name : String} (hname : IsName name)
    {names : SlotNames} {code : Code} (hcode : code.Finite) {s : Subroutine}
    (h : (ofContainer c).subroutine name names code = .ok s) : s.Formed True False := by
  obtain ⟨b, hb, h⟩ := bind_ok h
  obtain ⟨ss, hss, h⟩ := bind_ok h
  cases h
  obtain ⟨hlib, hcodes⟩ := Body.ofCode_same hb
  have hfinite : ∀ x, .pushFloat x ∈ b.code → x.isFinite := by
    intro x hx
    rw [hcodes, List.mem_toArray] at hx
    exact hcode x ((List.dropWhile_sublist _).subset hx)
  refine ⟨⟨rfl, hname⟩, parameters_isName names, fun _ => ?_, ?_⟩
  · rw [SlotNames.parameters, List.length_map, List.length_range]
    exact Nat.le_of_lt_succ names.parameterCount.toNat_lt
  · exact tidy_formed (Body.statements_lifted hc hlib hfinite hss)

theorem functionSubroutine_formed (hc : c.Writable) {f : FunctionEntry} (hf : f ∈ c.functions)
    {s : Subroutine} (h : (ofContainer c).functionSubroutine f = .ok s) : s.Formed True False := by
  obtain ⟨hname, hcode⟩ := hc.functions f hf
  exact subroutine_formed hc hname hcode h

theorem methodSubroutine_formed (hc : c.Writable) {m : MethodEntry} (hm : m.code.Finite)
    {s : Subroutine} (h : (ofContainer c).methodSubroutine m = .ok s) : s.Formed True False := by
  unfold methodSubroutine at h
  split at h
  · cases h
  · next name hname =>
    exact subroutine_formed hc (hc.symbols name (NameTable.mem_of_resolve hname)) hm h

/-- What is found is as `P` says, when each result is. -/
theorem found_foldl {P : α → Prop} {f : Progress α → β → Progress α} {xs : List β}
    (hf : ∀ p, ∀ x ∈ xs, (∀ a ∈ p.found, P a) → ∀ a ∈ (f p x).found, P a) {p : Progress α}
    (hp : ∀ a ∈ p.found, P a) : ∀ a ∈ (xs.foldl f p).found, P a := by
  induction xs generalizing p with
  | nil => exact hp
  | cons x xs ih =>
    exact ih (fun q y hy => hf q y (List.mem_cons_of_mem x hy)) (hf p x List.mem_cons_self hp)

theorem Progress.found_add {P : α → Prop} {p : Progress α} {r : Except DecompileError α}
    (hp : ∀ a ∈ p.found, P a) (hr : ∀ a, r = .ok a → P a) (owner : Option String) (name : String) :
    ∀ a ∈ (p.add owner name r).found, P a := by
  cases r with
  | error e => exact hp
  | ok a => exact List.forall_mem_cons.mpr ⟨hr a rfl, hp⟩

theorem addClass_formed (hc : c.Writable) {p : Progress ClassDecl} {x : ClassEntry × ClassShape}
    (hx : x.1 ∈ c.classes) (hp : ∀ d ∈ p.found, d.Formed True False) :
    ∀ d ∈ ((ofContainer c).addClass p x).found, d.Formed True False := by
  obtain ⟨k, shape⟩ := x
  obtain ⟨hname, hmethods⟩ := hc.classes k hx
  have hnone {α : Type} {P : α → Prop} (failures : List DecompileFailure) :
      ∀ a ∈ ({ failures } : Progress α).found, P a := fun _ h => absurd h List.not_mem_nil
  intro d hd
  rcases List.mem_cons.mp hd with rfl | hd
  · refine ⟨⟨rfl, hname⟩, fun t ht => ?_, fun t ht => ?_, fun m hm => ?_⟩
    · obtain ⟨i, -, ht⟩ := Option.bind_eq_some_iff.mp ht
      obtain ⟨b, hb, rfl⟩ := Option.map_eq_some_iff.mp ht
      exact ⟨rfl, (hc.classes b (List.mem_of_getElem? hb)).1⟩
    · refine found_foldl (fun q s _ hq => Progress.found_add hq (fun t ht => ?_) _ _) (hnone _) t
        (List.mem_reverse.mp ht)
      split at ht
      · next name hsymbol =>
        cases ht
        exact ⟨rfl, hc.symbols name (NameTable.mem_of_resolve hsymbol)⟩
      · cases ht
    · refine found_foldl (fun q y hy hq => Progress.found_add hq (fun s hs => ?_) _ _) (hnone _) m
        (List.mem_reverse.mp hm)
      obtain ⟨i, -, hi⟩ := List.mem_filterMap.mp hy
      obtain ⟨e, he, rfl⟩ := Option.map_eq_some_iff.mp hi
      rw [List.getElem?_toArray] at he
      exact methodSubroutine_formed hc (hmethods e (List.mem_of_getElem? he)) hs
  · exact hp d hd

/-- What holds of all subroutines that are read holds of all methods of the classes found. -/
theorem addClass_methods {l : Library} {P : Subroutine → Prop}
    (h : ∀ name names code s, l.subroutine name names code = .ok s → P s) {p : Progress ClassDecl}
    {x : ClassEntry × ClassShape} (hp : ∀ d ∈ p.found, ∀ m ∈ d.methods, P m) :
    ∀ d ∈ (l.addClass p x).found, ∀ m ∈ d.methods, P m := by
  intro d hd
  rcases List.mem_cons.mp hd with rfl | hd
  · intro m hm
    refine found_foldl (fun q y _ hq => Progress.found_add hq (fun s hs => ?_) _ _)
      (fun _ h => absurd h List.not_mem_nil) m (List.mem_reverse.mp hm)
    unfold methodSubroutine at hs
    split at hs
    · cases hs
    · exact h _ _ _ s hs
  · exact hp d hd

end Library

def SourceUnit.subroutines (u : SourceUnit) : List Subroutine :=
  u.functions ++ u.classes.flatMap (·.methods)

namespace Container

open Library

variable {c : Container}

/-- What holds of all subroutines that are read holds of those of the unit. -/
theorem decompile_subroutines {P : Subroutine → Prop}
    (h : ∀ name names code s, (ofContainer c).subroutine name names code = .ok s → P s) :
    ∀ s ∈ c.decompile.unit.subroutines, P s := by
  intro s hs
  rcases List.mem_append.mp hs with hs | hs
  · exact found_foldl (fun q e _ hq => Progress.found_add hq (fun s hs => h _ _ _ s hs) _ _)
      (fun _ h => absurd h List.not_mem_nil) s (List.mem_reverse.mp hs)
  · obtain ⟨d, hd, hs⟩ := List.mem_flatMap.mp hs
    exact found_foldl (fun q x _ hq => addClass_methods h hq)
      (fun _ h => absurd h List.not_mem_nil) d (List.mem_reverse.mp hd) s hs

theorem decompile_formed (hc : c.Writable) : c.decompile.unit.Formed True False := by
  refine ⟨fun t ht => ?_, fun f hf => ?_, fun d hd => ?_⟩
  · obtain ⟨name, hname, rfl⟩ := List.mem_map.mp ht
    exact ⟨rfl, hc.globals name hname⟩
  · refine found_foldl (fun q x hx hq => Progress.found_add hq (fun s hs => ?_) _ _)
      (fun _ h => absurd h List.not_mem_nil) f (List.mem_reverse.mp hf)
    exact functionSubroutine_formed hc hx hs
  · refine found_foldl (fun q x hx hq => addClass_formed hc (List.of_mem_zip hx).1 hq)
      (fun _ h => absurd h List.not_mem_nil) d (List.mem_reverse.mp hd)

/-- The unit of the text agrees with the one that was printed in all that does not depend on
expressions and places. -/
theorem reread_map (hc : c.Writable) (n : Nat) (file : Option String) {α : Type}
    (q : Subroutine → α) (hbare : ∀ s : Subroutine, q s.bare = q s)
    (hfolded : ∀ s : Subroutine, q s.folded = q s) :
    (SourceUnit.ofSource (c.decompile.unit.text (spaces n)) file).1.functions.map q
        = c.decompile.unit.functions.map q ∧
      (SourceUnit.ofSource (c.decompile.unit.text (spaces n)) file).1.classes.map
          (fun d => (d.name.text, d.methods.map q))
        = c.decompile.unit.classes.map fun d => (d.name.text, d.methods.map q) := by
  obtain ⟨-, hunit, -⟩ := (decompile_formed hc).reread n file
  generalize (SourceUnit.ofSource (c.decompile.unit.text (spaces n)) file).1 = u at hunit ⊢
  have hfunctions : u.functions.map (·.bare) = c.decompile.unit.functions.map (·.folded.bare) := by
    have h := congrArg SourceUnit.functions hunit
    exact h.trans (List.map_map ..)
  have hclasses : u.classes.map (·.bare) = c.decompile.unit.classes.map (·.folded.bare) := by
    have h := congrArg SourceUnit.classes hunit
    exact h.trans (List.map_map ..)
  have hmethods (d : ClassDecl) : d.bare.methods.map q = d.methods.map q := by
    show (d.methods.map (·.bare)).map q = _
    simp only [List.map_map, Function.comp_def, hbare]
  have hmethods' (d : ClassDecl) : d.folded.methods.map q = d.methods.map q := by
    show (d.methods.map (·.folded)).map q = _
    simp only [List.map_map, Function.comp_def, hfolded]
  have hname (d : ClassDecl) : d.bare.name.text = d.name.text := rfl
  have hname' (d : ClassDecl) : d.folded.name.text = d.name.text := rfl
  constructor
  · have h := congrArg (List.map q) hfunctions
    simpa only [List.map_map, Function.comp_def, hbare, hfolded] using h
  · have h := congrArg (List.map fun d => (d.name.text, d.methods.map q)) hclasses
    simpa only [List.map_map, Function.comp_def, hmethods, hmethods', hname, hname'] using h

theorem reread_globals (hc : c.Writable) (n : Nat) (file : Option String) :
    (SourceUnit.ofSource (c.decompile.unit.text (spaces n)) file).1.globals.map (·.text)
      = c.globals.toList := by
  obtain ⟨-, hunit, -⟩ := (decompile_formed hc).reread n file
  generalize (SourceUnit.ofSource (c.decompile.unit.text (spaces n)) file).1 = u at hunit ⊢
  have hbare : u.globals.map (·.bare) = (c.globals.toList.map Token.identifier).map (·.bare) := by
    have h := congrArg SourceUnit.globals hunit
    exact h.trans (List.map_map ..)
  have htexts := congrArg (List.map (·.text)) hbare
  rw [List.map_map, List.map_map, List.map_map] at htexts
  exact htexts.trans (List.map_id _)

/-- The text of a decompiled container parses without complaint, at any indentation, to the unit
that was printed, with every minus before a number made part of it. -/
theorem decompile_text (hc : c.Writable) (n : Nat) (file : Option String) :
    (SourceUnit.ofSource (c.decompile.unit.text (spaces n)) file).2 = [] ∧
      (SourceUnit.ofSource (c.decompile.unit.text (spaces n)) file).1.bare
        = { c.decompile.unit.folded.bare with file } := by
  obtain ⟨-, hunit, hquiet⟩ := (decompile_formed hc).reread n file
  exact ⟨hquiet trivial, hunit⟩

/-- Signs in front of signs, powers on the left of powers, a quote to escape, an object on the right
of `.$`, and a loop over a collection that is spelled out. -/
def knotted : Container where
  strings := .ofList ["\"\n"]
  symbols := .ofList ["Box"]
  globals := .ofList ["all"]
  functions := [⟨"main", 1, [.pushInt8 (-5), .unary .negate, .pushInt8 2, .binary .pow,
    .pushFloat ⟨0xBFC00000⟩, .binary .pow, .setVariable (.ofGlobal 0),
    .pushZero, .setVariable (.ofLocal 2), .getVariable (.ofLocal 0), .property .length,
    .pushInt8 1, .binary .sub, .setVariable (.ofLocal 3),
    .getVariable (.ofLocal 3), .getVariable (.ofLocal 2), .binary .greaterEqual,
    .branch .ifFalse 26, .getVariable (.ofLocal 0), .getVariable (.ofLocal 2), .getElement,
    .createObject ⟨0⟩, .getDynamicMember, .setVariable (.ofLocal 1),
    .getVariable (.ofLocal 2), .pushInt8 1, .binary .add, .setVariable (.ofLocal 2),
    .branch .always (-36), .pushString ⟨0⟩, .return_]⟩]
  classes := [⟨"Box", [⟨0⟩], []⟩]

theorem decompile_text_knotted :
    knotted.decompile.failures = [] ∧
      (SourceUnit.ofSource (knotted.decompile.unit.text (spaces 2)) none).2 = [] ∧
      (SourceUnit.ofSource (knotted.decompile.unit.text (spaces 2)) none).1.bare
        = knotted.decompile.unit.folded.bare := by
  have hbox : IsName "Box" := .of_isWord (by decide) (by decide)
  have hall : IsName "all" := .of_isWord (by decide) (by decide)
  have hmain : IsName "main" := .of_isWord (by decide) (by decide)
  have hc : knotted.Writable := by
    refine ⟨fun name hn => ?_, fun name hn => ?_, fun f hf => ?_, fun k hk => ?_⟩
    · rw [show knotted.symbols.toList = ["Box"] from NameTable.toList_ofList _] at hn
      rwa [List.mem_singleton.mp hn]
    · rw [show knotted.globals.toList = ["all"] from NameTable.toList_ofList _] at hn
      rwa [List.mem_singleton.mp hn]
    · rw [List.mem_singleton.mp hf]
      refine ⟨hmain, fun x hx => ?_⟩
      have hone : x = ⟨0xBFC00000⟩ := by simpa using hx
      subst hone
      decide
    · rw [List.mem_singleton.mp hk]
      exact ⟨hbox, fun m hm => absurd hm List.not_mem_nil⟩
  have hrun : knotted.decompile.failures.isEmpty := by decide +kernel
  exact ⟨List.isEmpty_iff.mp hrun, decompile_text hc 2 none⟩

end Container

end Lss
