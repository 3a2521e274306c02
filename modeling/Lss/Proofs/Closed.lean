import Lss.Proofs.Scoped
import Lss.Proofs.Stretches
import Lss.Proofs.Uncaptured

/-!
# Closed bodies

Functions and methods that are read back are closed. No placeholder is left in them. Every local
that occurs has a number of its own, it is declared once, at the level of the body, and it is
mentioned only behind its declaration. All other variables are parameters, globals, `this` and the
elements of the loops around them. Numbers are given without regard to globals, so a name that
stands in front of the declaration of a local with this name is that of a global.
-/
namespace Lss

open Tidy

theorem nodup_numbered (stem : String) (n : Nat) : (numbered stem n).Nodup := by
  refine List.nodup_range.map fun i j h => ?_
  exact Nat.succ.inj (append_toString_injective stem h)

/-- In front of a declaration its name stands for something else, if it stands there at all. -/
theorem Stmt.Scoped.in_front {V W : String → Prop} {pre post : List Stmt} {name : Token}
    {init : Option Expr} (h : Scoped V (pre ++ .var name init :: post)) (hV : ∀ x, V x → W x)
    (hother : ∀ x, x ≠ name.text → W x)
    (hpre : name.text ∉ Binder.names .declared (bindersAll pre)) :
    Scoped W pre ∧ ∀ e ∈ init, e.Within W := by
  induction pre generalizing V with
  | nil =>
    cases h with
    | statement hs _ => cases hs
    | var hinit _ => exact ⟨.nil, fun e he => (hinit e he).mono hV⟩
  | cons s pre ih =>
    rw [bindersAll, Binder.names_append, List.mem_append, not_or] at hpre
    cases h with
    | statement hs hrest =>
      obtain ⟨hscoped, hinit⟩ := ih hrest hV hpre.2
      exact ⟨.statement (hs.mono hV) hscoped, hinit⟩
    | @var _ other value _ hvalue hrest =>
      have hknown : ∀ x, V x ∨ x = other.text → W x := by
        rintro x (hx | rfl)
        · exact hV x hx
        · apply hother
          intro heq
          exact hpre.1 (heq ▸ List.mem_cons_self)
      obtain ⟨hscoped, hinit⟩ := ih hrest hknown hpre.2
      exact ⟨.var (fun e he => (hvalue e he).mono hV) (hscoped.mono fun _ => .inl), hinit⟩

/-! Declarations stand in front. -/

namespace Tidy

variable {l : Locals} {x : String}

/-- What a statement mentions is new to no later one. -/
theorem tally_eq_zero {s : Stmt} (h : ¬ (s.fold Locals.meet l).seen.contains x) :
    ¬ l.seen.contains x ∧ s.tally x = 0 := by
  constructor
  · intro hseen
    exact h (l.grows_stmt s x hseen)
  · by_contra hpos
    exact h (seen_of_tally (Nat.pos_of_ne_zero hpos))

/-- A first assignment is turned into a declaration in front of all that mentions its local. -/
theorem declareOnto_fronts {ss : List Stmt}
    (hss : ∀ s ∈ ss, Binder.names .declared s.binders = []) {pre post : List Stmt}
    {init : Option Expr}
    (h : (declareOnto l [] ss).1 = pre ++ .var (.identifier x) init :: post) :
    ¬ l.seen.contains x ∧ Stmt.tallyAll x pre = 0 ∧ ∀ e ∈ init, e.tally x = 0 := by
  induction ss generalizing l pre with
  | nil =>
    rw [declareOnto] at h
    exact absurd h.symm (List.append_ne_nil_of_right_ne_nil pre (List.cons_ne_nil _ _))
  | cons s ss ih =>
    obtain ⟨hs, hrest⟩ := List.forall_mem_cons.mp hss
    rw [declareOnto] at h
    split at h
    · next name value hd =>
      rw [declareOnto_eq] at h
      cases pre with
      | nil =>
        cases h
        exact ⟨(declared?_fresh hd).1, rfl, declared?_tally hd⟩
      | cons p pre =>
        obtain ⟨rfl, hbehind⟩ := List.cons.inj h
        obtain ⟨hnew, hpre, hinit⟩ := ih hrest hbehind
        obtain ⟨hnew, hzero⟩ := tally_eq_zero hnew
        refine ⟨fun hseen => hnew (l.grows_insert name x hseen), ?_, hinit⟩
        rw [Stmt.tallyAll_cons, hzero, hpre]
    · rw [declareOnto_eq] at h
      cases pre with
      | nil =>
        obtain ⟨rfl, -⟩ := List.cons.inj h
        cases hs
      | cons p pre =>
        obtain ⟨rfl, hbehind⟩ := List.cons.inj h
        obtain ⟨hnew, hpre, hinit⟩ := ih hrest hbehind
        obtain ⟨hnew, hzero⟩ := tally_eq_zero hnew
        refine ⟨hnew, ?_, hinit⟩
        rw [Stmt.tallyAll_cons, hzero, hpre]

theorem declareLocals_fronts {ss : List Stmt}
    (hss : ∀ s ∈ ss, Binder.names .declared s.binders = []) {pre post : List Stmt}
    {init : Option Expr} (h : declareLocals ss = pre ++ .var (.identifier x) init :: post) :
    Stmt.tallyAll x pre = 0 ∧ ∀ e ∈ init, e.tally x = 0 := by
  unfold declareLocals at h
  dsimp only at h
  generalize (declareOnto {} [] ss).2.hoisted.reverse = names at h
  induction names generalizing pre with
  | nil => exact (declareOnto_fronts hss h).2
  | cons name names ih =>
    cases pre with
    | nil =>
      cases h
      refine ⟨rfl, ?_⟩
      rintro _ ⟨⟩
    | cons p pre =>
      obtain ⟨rfl, hbehind⟩ := List.cons.inj h
      obtain ⟨hpre, hinit⟩ := ih hbehind
      refine ⟨?_, hinit⟩
      rw [Stmt.tallyAll_cons, hpre]
      rfl

theorem mem_binders_of_atTop {s : Stmt} (hs : AtTop s)
    (hx : x ∈ Binder.names .declared s.binders) : ∃ init, s = .var (.identifier x) init := by
  rcases hs with hs | ⟨name, init, rfl, -⟩
  · rw [hs] at hx
    cases hx
  · obtain rfl := List.mem_singleton.mp hx
    exact ⟨init, rfl⟩

end Tidy

/-- A local is mentioned only behind its declaration, and it is not declared again. -/
structure Stmt.Declares (x : String) (pre : List Stmt) (init : Option Expr) (post : List Stmt) :
    Prop where
  front : Lacks x pre
  value : ∀ e ∈ init, e.tally x = 0
  once : ∀ b ∈ bindersAll post, b.name ≠ x

namespace Tidy

variable {ss : List Stmt} {x : String}

/-- Parameters and elements have no placeholders for names. -/
theorem role_of_placeholder (hss : Stmt.bindersAll ss = []) {b : Binder}
    (hb : b ∈ Stmt.bindersAll (declaredBody ss)) (hname : b.name.toList.head? = some '$') :
    b.role = .declared := by
  obtain ⟨-, -, m, hm⟩ := declaredBody_once hss
  obtain ⟨role, x⟩ := b
  have hmem := Binder.mem_names.mpr hb
  cases role with
  | parameter =>
    rw [Stmt.names_parameter_bindersAll] at hmem
    cases hmem
  | declared => rfl
  | element =>
    rw [hm] at hmem
    cases hname.symm.trans (head_numbered (by rfl) hmem)

/-- What does not declare a local does not introduce it. -/
theorem apart_of_declared (hss : Stmt.bindersAll ss = []) (hx : x.toList.head? = some '$')
    {ts : List Stmt} (hts : Stmt.bindersAll ts ⊆ Stmt.bindersAll (declaredBody ss))
    (hnot : x ∉ Binder.names .declared (Stmt.bindersAll ts)) :
    ∀ b ∈ Stmt.bindersAll ts, b.name ≠ x := by
  rintro ⟨role, name⟩ hb rfl
  obtain rfl : role = .declared := role_of_placeholder hss (hts hb) hx
  exact hnot (Binder.mem_names.mpr hb)

/-- A local that occurs is declared once, in front of all that mentions it. -/
theorem declaredBody_declares (hss : Stmt.bindersAll ss = []) (hx : x.toList.head? = some '$')
    (h : ¬ Stmt.Lacks x (declaredBody ss)) :
    ∃ pre init post, declaredBody ss = pre ++ .var (.identifier x) init :: post ∧
      Stmt.Declares x pre init post := by
  obtain ⟨hnodup, htop, -⟩ := declaredBody_once hss
  have hdeclared : x ∈ Binder.names .declared (Stmt.bindersAll (declaredBody ss)) := by
    by_contra hnot
    refine h ⟨?_, apart_of_declared hss hx (List.Subset.refl _) hnot⟩
    by_contra hpos
    exact hnot (declareLocals_mentions (Nat.pos_of_ne_zero hpos))
  rw [Binder.mem_names, Stmt.bindersAll_eq] at hdeclared
  obtain ⟨s, hs, hbinder⟩ := List.mem_flatMap.mp hdeclared
  obtain ⟨init, rfl⟩ := mem_binders_of_atTop (htop s hs) (Binder.mem_names.mpr hbinder)
  obtain ⟨pre, post, hsplit⟩ := List.append_of_mem hs
  obtain ⟨hpre, hinit⟩ := declareLocals_fronts (folded_plain hss) hsplit
  have hbinders : Stmt.bindersAll (declaredBody ss)
      = Stmt.bindersAll pre ++ (⟨.declared, x⟩ :: Stmt.bindersAll post) := by
    rw [hsplit, Stmt.bindersAll_append]
    rfl
  have hpost : Stmt.bindersAll post ⊆ Stmt.bindersAll (declaredBody ss) := by
    rw [hbinders]
    exact List.subset_append_of_subset_right _ (List.subset_cons_self _ _)
  have hfront : Stmt.bindersAll pre ⊆ Stmt.bindersAll (declaredBody ss) := by
    rw [hbinders]
    exact List.subset_append_left _ _
  rw [hbinders, Binder.names_append] at hnodup
  obtain ⟨hnew, -⟩ := List.nodup_cons.mp (List.nodup_middle.mp hnodup)
  rw [List.mem_append, not_or] at hnew
  exact ⟨pre, init, post, hsplit, ⟨hpre, apart_of_declared hss hx hfront hnew.1⟩, hinit,
    apart_of_declared hss hx hpost hnew.2⟩

end Tidy

/-- The statements with the new names of their locals. -/
def Tidy.rename (names : Renaming) (ss : List Stmt) : List Stmt :=
  (ss.map (redeclare names)).map (Stmt.replace (renamed names))

theorem Tidy.rename_declaration {names : Renaming} {x new : String} (h : names[x]? = some new)
    (pre : List Stmt) (init : Option Expr) (post : List Stmt) :
    rename names (pre ++ .var (.identifier x) init :: post)
      = rename names pre ++ .var (.identifier new) (init.map (Expr.replace (renamed names)))
        :: rename names post := by
  have hname : newName names (Token.identifier x).text = new := by
    rw [newName, show (Token.identifier x).text = x from rfl, h, Option.getD_some]
  simp only [rename, List.map_append, List.map_cons, redeclare, hname, Stmt.replace]
  rfl

/-- What makes the body that is tidied from `ss` closed. In `locals` the declarations are followed
from the body that still has placeholders, and these are no identifiers. -/
structure SubroutineOf.Closed (s : Subroutine) (globals : List String) (ss : List Stmt) : Prop where
  lacks : ∀ x, x.toList.head? = some '$' → Stmt.Lacks x s.body.statements
  tidied : s.body.statements = rename (naming ss) (declaredBody ss)
  numbers : Numbers (naming ss)
  locals : ∀ x, x.toList.head? = some '$' → ¬ Stmt.Lacks x (declaredBody ss) →
    ∃ new pre init post, (naming ss)[x]? = some new ∧
      declaredBody ss = pre ++ .var (.identifier x) init :: post ∧
      Stmt.Declares x pre init post ∧
      s.body.statements = rename (naming ss) pre
        ++ .var (.identifier new) (init.map (Expr.replace (renamed (naming ss))))
          :: rename (naming ss) post
  declared : ∃ k, Binder.names .declared (Stmt.bindersAll s.body.statements) = numbered "var" k
  known : Stmt.Scoped (fun x => x ∈ s.parameters.map (·.text) ∨ x ∈ globals) s.body.statements
  behind : ∀ (pre : List Stmt) (name : Token) (init : Option Expr) (post : List Stmt),
    s.body.statements = pre ++ .var name init :: post →
    (∀ b ∈ Stmt.bindersAll pre, b.name ≠ name.text) ∧
      Stmt.Scoped (fun x => x = name.text → x ∈ globals) pre ∧
      ∀ e ∈ init, e.Within fun x => x = name.text → x ∈ globals

namespace Library

variable {l : Library} {names : SlotNames} {code : Code} {s : Subroutine}

def statements (l : Library) (names : SlotNames) (code : Code) :
    Except DecompileError (List Stmt) := do
  (← Body.ofCode l names (code.dropWhile Instruction.isPrologue)).statements

theorem subroutine_eq_ok {name : String} (h : l.subroutine name names code = .ok s) :
    s.parameters = names.parameters ∧
      ∃ ss, l.statements names code = .ok ss ∧ s.body.statements = tidy ss := by
  obtain ⟨b, hb, h⟩ := bind_ok h
  obtain ⟨ss, hss, h⟩ := bind_ok h
  cases h
  exact ⟨rfl, ss, by rw [statements, hb]; exact hss, rfl⟩

inductive Decompiles (l : Library) : SlotNames → Code → Subroutine → Prop
  | function {i : Nat} {f : FunctionEntry} {s : Subroutine} : l.container.functions[i]? = some f →
      l.decompileFunction i = .ok s → Decompiles l { parameterCount := f.parameterCount } f.code s
  | method {i j : Nat} {k : ClassEntry} {m : MethodEntry} {s : Subroutine} :
      l.container.classes[i]? = some k → k.methods[j]? = some m →
      l.decompileMethod i j = .ok s →
      Decompiles l { isMethod := true, parameterCount := m.parameterCount } m.code s

theorem Decompiles.subroutine (h : l.Decompiles names code s) :
    ∃ name, l.subroutine name names code = .ok s := by
  cases h with
  | @function i f _ hf h =>
    rw [decompileFunction, hf] at h
    exact ⟨f.name, h⟩
  | @method i j k m _ hk hm h =>
    rw [decompileMethod, hk] at h
    dsimp only at h
    rw [hm] at h
    dsimp only at h
    unfold methodSubroutine at h
    split at h
    · cases h
    · next name hname => exact ⟨name, h⟩

end Library

namespace Container

variable {c : Container} {names : SlotNames} {code : Code} {s : Subroutine}

/-- What is tidied from statements that code is read as is closed. -/
theorem subroutine_closed {ss : List Stmt}
    (hss : (Library.ofContainer c).statements names code = .ok ss)
    (hparameters : s.parameters = names.parameters) (hbody : s.body.statements = tidy ss) :
    s.Closed c.globals.toList ss := by
  obtain ⟨b, hb, hss⟩ := bind_ok hss
  obtain ⟨hlib, -⟩ := Body.ofCode_same hb
  obtain ⟨-, hnames⟩ := Body.closes_ofCode hb
  have hplain := Body.statements_binders hss
  obtain ⟨hmap, hnumbers, hdeclared⟩ := naming_spec hplain
  obtain ⟨⟨k, hk⟩, m, hm⟩ := tidy_binders hplain
  have hwithin := Body.statements_within hlib hss
  rw [hnames] at hwithin
  have htidied : tidy ss = rename (naming ss) (declaredBody ss) := by
    rw [rename, ← hmap]
    exact Stmt.replaceAll_eq _ [] _
  have hknown : Stmt.Scoped (fun x => x ∈ s.parameters.map (·.text) ∨ x ∈ c.globals.toList)
      s.body.statements := by
    rw [hbody, hparameters]
    exact (tidy_scoped hplain hwithin).mono fun _ hx => hx.1
  refine ⟨fun x hx => hbody ▸ tidy_lacks hplain hx, hbody.trans htidied, hnumbers,
    fun x hx hoccurs => ?_, ⟨k, hbody ▸ hk⟩, hknown, fun pre name init post hsplit => ?_⟩
  · obtain ⟨pre, init, post, hsplit, hdeclares⟩ := declaredBody_declares hplain hx hoccurs
    have hmem : x ∈ Binder.names .declared (Stmt.bindersAll (declaredBody ss)) := by
      rw [hsplit, Stmt.bindersAll_append, Binder.names_append]
      exact List.mem_append_right _ List.mem_cons_self
    obtain ⟨new, hnew⟩ := Option.isSome_iff_exists.mp
      (Std.TreeMap.mem_iff_isSome_getElem?.mp (hdeclared x hmem))
    refine ⟨new, pre, init, post, hnew, hsplit, hdeclares, ?_⟩
    rw [hbody, htidied]
    exact (congrArg _ hsplit).trans (rename_declaration hnew pre init post)
  · rw [← hbody, hsplit, Stmt.bindersAll_append, Stmt.bindersAll, Binder.names_append,
      Binder.names_append] at hk hm
    have hname : name.text ∈ numbered "var" k := by
      rw [← hk]
      exact List.mem_append_right _ List.mem_cons_self
    have hhead := head_numbered (by rfl) hname
    have hnodup := nodup_numbered "var" k
    rw [← hk, List.nodup_append] at hnodup
    have hpre : name.text ∉ Binder.names .declared (Stmt.bindersAll pre) := fun hmem =>
      hnodup.2.2 _ hmem _ List.mem_cons_self rfl
    have hparameter : name.text ∉ s.parameters.map (·.text) := by
      intro hmem
      rw [hparameters, names.parameters_eq, List.map_map] at hmem
      obtain ⟨x, hx, heq⟩ := List.mem_map.mp hmem
      have heq : x = name.text := heq
      cases (hhead.symm.trans (head_numbered (by rfl) (heq ▸ hx)))
    have hvisible : ∀ x, x ∈ s.parameters.map (·.text) ∨ x ∈ c.globals.toList →
        x = name.text → x ∈ c.globals.toList := by
      rintro x (hx | hx) rfl
      · exact absurd hx hparameter
      · exact hx
    refine ⟨?_, (hsplit ▸ hknown).in_front hvisible (fun x hne heq => absurd heq hne) hpre⟩
    rintro ⟨role, x⟩ hb rfl
    have hmem := Binder.mem_names.mpr hb
    cases role with
    | parameter =>
      rw [Stmt.names_parameter_bindersAll] at hmem
      cases hmem
    | declared => exact hpre hmem
    | element =>
      have hitem : name.text ∈ numbered "item" m := by
        rw [← hm]
        exact List.mem_append_left _ hmem
      cases hhead.symm.trans (head_numbered (by rfl) hitem)

/-- Every function and every method that is read back is closed. -/
theorem decompiles_closed (h : (Library.ofContainer c).Decompiles names code s) :
    s.parameters = names.parameters ∧
      ∃ ss, (Library.ofContainer c).statements names code = .ok ss ∧
        s.Closed c.globals.toList ss := by
  obtain ⟨name, hs⟩ := h.subroutine
  obtain ⟨hparameters, ss, hss, hbody⟩ := Library.subroutine_eq_ok hs
  exact ⟨hparameters, ss, hss, subroutine_closed hss hparameters hbody⟩

def exceeded : String :=
  "global limit; function exceed(list) \x7b foreach (x in list) " ++
    "\x7b if (x > limit) \x7b var last = x; limit = last; \x7d \x7d return limit; \x7d"

theorem decompiles_closed_exceeded :
    ∃ c f s, (compileSource {} exceeded none).container = some c ∧ c.functions[0]? = some f ∧
      (Library.ofContainer c).Decompiles { parameterCount := 1 } f.code s ∧
      ∃ ss, (Library.ofContainer c).statements { parameterCount := 1 } f.code = .ok ss ∧
        s.Closed ["limit"] ss := by
  have hrun : (compileSource {} exceeded none).container.any fun c =>
      c.globals.toList == ["limit"] && c.functions[0]?.any (·.parameterCount == 1) &&
        ((Library.ofContainer c).decompileFunction 0).toOption.isSome := by
    decide +kernel
  obtain ⟨c, hc, hany⟩ := (Option.any_eq_true _ _).mp hrun
  simp only [Bool.and_eq_true, beq_iff_eq] at hany
  obtain ⟨⟨hglobals, hfunction⟩, hread⟩ := hany
  obtain ⟨f, hf, hcount⟩ := (Option.any_eq_true _ _).mp hfunction
  cases hs : (Library.ofContainer c).decompileFunction 0 with
  | error e =>
    rw [hs] at hread
    cases hread
  | ok s =>
    have hdecompiles := Library.Decompiles.function (l := .ofContainer c) hf hs
    rw [eq_of_beq hcount] at hdecompiles
    obtain ⟨-, ss, hss, hclosed⟩ := decompiles_closed hdecompiles
    exact ⟨c, f, s, hc, hf, hdecompiles, ss, hss, hglobals ▸ hclosed⟩

end Container

end Lss
