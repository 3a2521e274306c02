import Lss.Proofs.Accessed
import Lss.Proofs.Relinked
import Lss.Proofs.Vocabulary
import Lss.Proofs.Joined

/-!
# Which global an instruction refers to

The table of globals has room for 65535 names, and a slot spends one of its 16 bits to tell globals
from locals. So an instruction refers to the global that it was emitted for as long as the table has
no more than 32768 names; behind that, places come around, and two globals share a slot.
-/
namespace Lss

open Lower

theorem Code.accesses_linked (place : String → UInt32) (code : Code) :
    (Code.linked place code).accesses = code.accesses := by
  induction code with
  | nil => rfl
  | cons i code ih =>
    rw [Code.linked_cons, Code.accesses_cons, Code.accesses_cons, ih]
    cases i <;> rfl

namespace Container

/-- What a slot stands for: a local by its number, and a global by its place in the table, of which
there is room for 15 bits. -/
def Denotes (c : Container) : Referent → Slot → Prop
  | .own i, s => s = .ofLocal i
  | .global name, s => s.isGlobal ∧
      ∃ k, c.globals.get? k = some name ∧ s.index.toNat = k.toNat % 0x8000

/-- In every body the instructions on variables are those for the names in its subroutine. -/
structure Refers (c : Container) (sources : List SourceUnit) : Prop where
  functions : ∀ e ∈ c.functions, ∃ s ∈ sources.flatMap (·.functions), e.name = s.name.text ∧
    Accessed c.Denotes (s.accesses false) e.code
  methods : ∀ k ∈ c.classes, ∀ e ∈ k.methods, ∃ d ∈ sources.flatMap (·.classes), ∃ m ∈ d.methods,
    c.symbols.get? e.symbol.index = some m.name.text ∧
      Accessed c.Denotes (m.accesses true) e.code

section

variable {c : Container} {sources : List SourceUnit} {isMethod : Bool} {s : Subroutine}
  {code : Code} {name other : String} {slot : Slot}

theorem accessed_of_compiled (h : Compiled c isMethod s code) :
    Accessed c.Denotes (s.accesses isMethod) code := by
  obtain ⟨env, place, raw, rfl, hemit⟩ := h
  obtain ⟨p, q, -, hrun, -⟩ := hemit.lowered
  have hraw := lowerSubroutine_accessed env s p raw q hrun
  unfold Accessed at hraw ⊢
  rw [hemit.code, Code.accesses_linked]
  refine hraw.imp fun a b hab => hab.imp fun r slot hslot => ?_
  cases r with
  | own i => exact hslot
  | global name =>
    obtain ⟨k, hk, rfl⟩ := hslot
    exact ⟨Slot.isGlobal_ofGlobal k, k, hemit.within.get? (hemit.globals name k hk),
      Slot.toNat_index_ofGlobal k⟩

theorem Denotes.get? (h : c.Denotes (.global name) slot) (hfew : c.globals.size ≤ 0x8000) :
    c.globals.get? slot.index = some name := by
  obtain ⟨-, k, hk, hindex⟩ := h
  have hlt : k.toNat < 0x8000 := Nat.lt_of_lt_of_le (NameTable.lt_size_of_get? hk) hfew
  rw [Nat.mod_eq_of_lt hlt] at hindex
  rw [UInt16.toNat_inj.mp hindex, hk]

/-- Every instruction for a name that stands for a global has a slot of that global, with as much of
its place as there is room for. With no more globals than that, the slot leads to the global, and
to no other. -/
theorem Grown.refers (h : Grown sources c) : c.Refers sources ∧
    (c.globals.size ≤ 0x8000 → ∀ name slot, c.Denotes (.global name) slot →
      slot.isGlobal ∧ c.globals.get? slot.index = some name ∧
        ∀ other, c.Denotes (.global other) slot → other = name) := by
  have hc := h.holds
  refine ⟨⟨fun e he => ?_, fun k hk e he => ?_⟩, fun hfew name slot hslot => ?_⟩
  · obtain ⟨s, hs, hspec⟩ := hc.exists_bears he
    exact ⟨s, hs, hspec.name, accessed_of_compiled hspec.code⟩
  · obtain ⟨m, hname, ⟨d, hd, hm⟩, hcomp⟩ := (hc.classes k hk).methods e he
    exact ⟨d, hd, m, hm, hname, accessed_of_compiled hcomp⟩
  · have hget := Denotes.get? hslot hfew
    refine ⟨hslot.1, hget, fun other hother => ?_⟩
    exact Option.some.inj ((Denotes.get? hother hfew).symm.trans hget)

end

theorem Grown.refers_callee_caller :
    ∃ c, ((ofSettings {}).compile {} [callee, caller]).container = some c ∧
      c.globals.toList = ["all"] ∧
      (∃ s ∈ caller.functions, .get (.global "all") ∈ s.accesses false) ∧
      c.Refers [callee, caller] ∧
      ∀ name slot, c.Denotes (.global name) slot →
        slot.isGlobal ∧ c.globals.get? slot.index = some name ∧
          ∀ other, c.Denotes (.global other) slot → other = name := by
  have hrun : ((ofSettings {}).compile {} [callee, caller]).container.any
      fun c => c.globals.toList == ["all"] := by
    decide +kernel
  have hmentions : ∃ s ∈ caller.functions, .get (.global "all") ∈ s.accesses false := by
    decide +kernel
  obtain ⟨c, hc, hglobals⟩ := (Option.any_eq_true _ _).mp hrun
  have hglobals := eq_of_beq hglobals
  have hgrown : Grown [callee, caller] c := .session {} [callee, caller] (.start {}) hc
  obtain ⟨hrefers, hleads⟩ := hgrown.refers
  refine ⟨c, hc, hglobals, hmentions, hrefers, hleads ?_⟩
  rw [NameTable.size_eq, hglobals]
  decide

end Container

/-! More globals than a slot can tell apart. -/

namespace NameTable

variable {t : NameTable}

/-- New names go behind those of a table while they fit. -/
theorem Sound.admit_all (h : t.Sound) {ts : List Token} (hnodup : (ts.map (·.text)).Nodup)
    (hnew : ∀ g ∈ ts, g.text ∉ t.names) (hfit : t.size + ts.length ≤ capacity) :
    ∃ u, ts.foldlM (fun t g => t.admit? g.text) t = some u ∧ u.Sound ∧
      u.toList = t.toList ++ ts.map (·.text) := by
  induction ts generalizing t with
  | nil => exact ⟨t, rfl, h, (List.append_nil _).symm⟩
  | cons g ts ih =>
    obtain ⟨hg, hnodup⟩ := List.nodup_cons.mp hnodup
    have hfresh : g.text ∉ t.names := hnew g List.mem_cons_self
    have hroom : t.size < capacity := by
      rw [List.length_cons] at hfit
      omega
    have hadded : t.admit? g.text = some (t.push g.text) := by
      have hnone : t.find? g.text = none := by
        rw [← Option.not_isSome_iff_eq_none, h.find?_isSome]
        exact hfresh
      refine admit?_eq_some.mpr ⟨UInt16.ofNat t.size, ?_⟩
      rw [NameTable.intern, hnone]
      exact if_pos hroom
    have hrest : ∀ x ∈ ts, x.text ∉ (t.push g.text).names := by
      intro x hx hmem
      rw [names_push, Finset.mem_insert] at hmem
      rcases hmem with heq | hmem
      · exact hg (List.mem_map.mpr ⟨x, hx, heq⟩)
      · exact hnew x (List.mem_cons_of_mem g hx) hmem
    have hsize : (t.push g.text).size = t.size + 1 := by
      rw [size_eq, toList_push, List.length_append, ← size_eq, List.length_singleton]
    obtain ⟨u, hu, hsound, hlist⟩ := ih (h.push hfresh hroom) hnodup hrest (by
      rw [List.length_cons] at hfit
      omega)
    refine ⟨u, ?_, hsound, ?_⟩
    · rw [List.foldlM_cons, hadded]
      exact hu
    · rw [hlist, toList_push, List.append_assoc, List.map_cons, List.singleton_append]

end NameTable

namespace Container

def returning (t : Token) : Subroutine :=
  ⟨.identifier "f", [], ⟨[.return_ (some (.variable t)) .synthetic], .synthetic⟩⟩

/-- One global more than slots can tell apart, and a function that returns the last. -/
def crowded : SourceUnit where
  globals := (List.range 32769).map fun i => .identifier ("g" ++ toString i)
  functions := [returning (.identifier "g32768")]

theorem nodup_crowded : (crowded.globals.map (·.text)).Nodup := by
  unfold crowded
  rw [List.map_map]
  exact List.nodup_range.map (append_toString_injective "g")

theorem getElem?_crowded {i : Nat} (h : i < 32769) :
    (crowded.globals.map (·.text))[i]? = some ("g" ++ toString i) := by
  unfold crowded
  rw [List.map_map, List.getElem?_map, List.getElem?_range h]
  rfl

/-- In a table that found all globals in order, the last one is where 15 bits end. -/
theorem find?_crowded {t : NameTable} (ht : t.Sound)
    (hlist : t.toList = crowded.globals.map (·.text)) : t.find? "g32768" = some 0x8000 := by
  have hget : t.get? 0x8000 = some "g32768" := by
    rw [NameTable.get?_eq, hlist]
    exact getElem?_crowded (by decide)
  have hsome : (t.find? "g32768").isSome := ht.find?_isSome.mpr (NameTable.mem_names_of_get? hget)
  obtain ⟨k, hk⟩ := Option.isSome_iff_exists.mp hsome
  rw [hk, ht.get?_inj (ht.exact _ k hk) hget]

theorem resolveFrom_start (name : String) : Scopes.start.resolveFrom name 0 = none := by
  rw [Scopes.resolveFrom]
  simp [Scopes.start, Scopes.enter]

theorem lowerSubroutine_returning {env : Env} {p : Pool} {t : Token} {k : UInt16}
    (howner : env.owner = none) (hmarks : env.lineNumbers = false) (ht : t.kind = .identifier)
    (hfind : env.globals.find? t.text = some k) :
    (lowerSubroutine env (returning t)).run.run p =
      (.ok [.getVariable (.ofGlobal k), .return_], p) := by
  have hread : readFrom env Scopes.start 0 t = pure [.getVariable (.ofGlobal k)] := by
    rw [readFrom.eq_def, resolveFrom_start, readGlobal, hfind]
    rfl
  have hlower : lower env Scopes.start (.variable t) = pure [.getVariable (.ofGlobal k)] := by
    rw [lower]
    simp only [lowerExpr, lowerVariable, ht]
    exact hread
  have hmark (s : Stmt) : lineMark env s = [] := by simp [lineMark, hmarks]
  have hbody : lowerStmts env [] Scopes.start [.return_ (some (.variable t)) .synthetic] =
      pure ([.getVariable (.ofGlobal k), .return_], Scopes.start) := by
    simp only [lowerStmts, lowerStmt, hlower]
    simp [marked, hmark]
  have hstart : Draft.start "f" [] false =
      .ok { name := "f", parameterCount := 0, isMethod := false, scopes := Scopes.start } := rfl
  unfold lowerSubroutine returning
  rw [howner]
  simp only [Token.identifier, Token.synthetic, Option.isSome_none]
  rw [hstart]
  simp only [Lower.ofExcept, pure_bind, hbody]
  rfl

/-- Globals that fit, and a function that returns one of them, compile. -/
theorem compile_returning {gs : List Token} {t : NameTable} {x : Token} {k : UInt16}
    (hadded : gs.foldlM (fun t g => t.admit? g.text) NameTable.empty = some t)
    (hx : x.kind = .identifier) (hfind : t.find? x.text = some k) :
    ∃ c, ((ofSettings {}).compile {} [{ globals := gs, functions := [returning x] }]).container =
        some c ∧ c.globals = t ∧
      c.functions = [⟨"f", 0, [.getVariable (.ofGlobal k), .return_]⟩] := by
  let u : SourceUnit := { globals := gs, functions := [returning x] }
  let e : FunctionEntry := ⟨"f", 0, [.getVariable (.ofGlobal k), .return_]⟩
  have hcode : ∀ p, (lowerSubroutine { (ofSettings {}).declaredBy {} [u] t with }
      (returning x)).run.run p = (.ok e.code, p) :=
    fun p => lowerSubroutine_returning rfl rfl hx hfind
  have hlowers : (ofSettings {}).Lowers {} [u] t [e] [] (ofSettings {}).pool
      (ofSettings {}).pool := by
    have hclasses : newClasses [u] = [] := rfl
    have horder : orderClasses [] (ofSettings {}) = ([], []) := by decide +kernel
    constructor
    · constructor
      · exact List.nodup_singleton _
      · intro f _
        simp [Session.signatures, ofSettings]
      · rw [List.flatMap_singleton]
        exact hadded
      · rw [hclasses]
        exact List.nodup_nil
      · simp [hclasses]
      · rw [hclasses, horder]
      · simp [hclasses]
    · show (lowerFunctions _ [returning x]).run.run _ = _
      rw [Session.lowerFunctions_cons]
      refine run_bind_eq_ok.mpr ⟨e.code, _, ?_, rfl⟩
      rw [run_quiet, hcode]
      rfl
    · rw [orderedClasses, hclasses, horder]
      rfl
  have hlinkable : ((ofSettings {}).assemble t ([e], []) (ofSettings {}).pool).Linkable := by
    constructor
    · intro e' he' f argc hmem
      rw [List.mem_singleton.mp he'] at hmem
      simp [e] at hmem
    · intro k hk
      cases hk
  exact ⟨_, compile_iff_lowers.mpr ⟨t, [e], [], _, _, hlowers, hlinkable, rfl⟩, rfl, rfl⟩

/-- The function reads the last global, and its code the first. -/
theorem Grown.refers_crowded :
    ∃ c, ((ofSettings {}).compile {} [crowded]).container = some c ∧
      ∃ e ∈ c.functions, ∃ s ∈ crowded.functions, e.name = s.name.text ∧
        s.accesses false = [.get (.global "g32768")] ∧
        e.code.accesses = [.get (.ofGlobal 0x8000)] ∧
        c.globals.get? (Slot.ofGlobal 0x8000).index = some "g0" := by
  obtain ⟨t, hadded, ht, hlist⟩ := NameTable.sound_empty.admit_all nodup_crowded
    (fun _ _ hmem => by simp [NameTable.mem_names, NameTable.empty, NameTable.toList] at hmem)
    (by simp [crowded, NameTable.empty, NameTable.size, NameTable.capacity])
  have hlist : t.toList = crowded.globals.map (·.text) := by
    simpa [NameTable.empty, NameTable.toList] using hlist
  obtain ⟨c, hc, hglobals, hfunctions⟩ :=
    compile_returning (x := .identifier "g32768") hadded rfl (find?_crowded ht hlist)
  have hunit : { globals := crowded.globals, functions := [returning (.identifier "g32768")] } =
      crowded := by
    rw [crowded]
  rw [hunit] at hc
  have hindex : (Slot.ofGlobal 0x8000).index = 0 := by decide
  refine ⟨c, hc, ⟨"f", 0, [.getVariable (.ofGlobal 0x8000), .return_]⟩, ?_,
    returning (.identifier "g32768"), List.mem_cons_self, rfl, by decide +kernel, rfl, ?_⟩
  · rw [hfunctions]
    exact List.mem_cons_self
  · rw [hglobals, hindex, NameTable.get?_eq, hlist]
    exact getElem?_crowded (by decide)

end Container

end Lss
