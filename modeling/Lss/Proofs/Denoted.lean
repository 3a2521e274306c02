import Mathlib.Data.List.Forall2
import Lss.Proofs.Compiled

/-!
# Containers by name

Places in the string and symbol tables mean nothing in themselves. With every one of them replaced
by the name that stands there, containers whose tables have different orders can be compared.
-/
namespace Lss

section

variable {α β γ : Type} {R : α → β → Prop} {as : List α} {bs : List β}

theorem map_eq_of_rel {f : α → γ} {g : β → γ} (h : List.Forall₂ R as bs)
    (hR : ∀ a b, R a b → f a = g b) : as.map f = bs.map g := by
  induction h with
  | nil => rfl
  | cons hab _ ih => rw [List.map_cons, List.map_cons, hR _ _ hab, ih]

theorem rel_map_left_of_mem {S : γ → β → Prop} {f : α → γ} (h : List.Forall₂ R as bs)
    (hf : ∀ a ∈ as, ∀ b, R a b → S (f a) b) : List.Forall₂ S (as.map f) bs := by
  induction h with
  | nil => exact .nil
  | cons hab _ ih =>
    rw [List.forall_mem_cons] at hf
    exact .cons (hf.1 _ hab) (ih hf.2)

theorem forall_mem_iff_of_rel {P : α → Prop} {Q : β → Prop} (h : List.Forall₂ R as bs)
    (hR : ∀ a b, R a b → (P a ↔ Q b)) : (∀ a ∈ as, P a) ↔ ∀ b ∈ bs, Q b := by
  induction h with
  | nil => simp
  | cons hab _ ih => rw [List.forall_mem_cons, List.forall_mem_cons, hR _ _ hab, ih]

end

def Pool.name? (p : Pool) : Reference → Option String
  | .string s => p.strings.get? s.index
  | .symbol s => p.symbols.get? s.index

structure NamedInstruction where
  form : Instruction
  names : List (Option String)
deriving DecidableEq, Repr

structure NamedFunction where
  name : String
  parameterCount : UInt8
  code : List NamedInstruction
deriving DecidableEq, Repr

structure NamedMethod where
  name : Option String
  code : List NamedInstruction
deriving DecidableEq, Repr

structure NamedClass where
  name : String
  properties : List (Option String)
  methods : List NamedMethod
deriving DecidableEq, Repr

/-- All that a container says, whatever the order of its tables of strings and symbols. -/
structure NamedContainer where
  major : UInt16
  minor : UInt16
  globals : List String
  functions : List NamedFunction
  classes : List NamedClass
deriving DecidableEq, Repr

section

variable (p : Pool)

def Instruction.named (i : Instruction) : NamedInstruction := ⟨i.form, i.references.map p.name?⟩

def FunctionEntry.named (e : FunctionEntry) : NamedFunction :=
  ⟨e.name, e.parameterCount, e.code.map (·.named p)⟩

def MethodEntry.named (e : MethodEntry) : NamedMethod :=
  ⟨p.name? (.symbol e.symbol), e.code.map (·.named p)⟩

def ClassEntry.named (k : ClassEntry) : NamedClass :=
  ⟨k.name, k.properties.map fun s => p.name? (.symbol s), k.methods.map (·.named p)⟩

end

def Container.named (c : Container) : NamedContainer where
  major := c.major
  minor := c.minor
  globals := c.globals.toList
  functions := c.functions.map (·.named c.pool)
  classes := c.classes.map (·.named c.pool)

/-! The same names in two pools. -/

def SymbolId.Alike (p q : Pool) (s t : SymbolId) : Prop :=
  ∃ name, p.symbols.get? s.index = some name ∧ q.symbols.get? t.index = some name

def StringId.Alike (p q : Pool) (s t : StringId) : Prop :=
  ∃ value, p.strings.get? s.index = some value ∧ q.strings.get? t.index = some value

/-- The same instruction up to places in tables, and these have the same names. -/
def Instruction.Alike (p q : Pool) (i j : Instruction) : Prop :=
  i.form = j.form ∧ ∃ names : List String, i.references.map p.name? = names.map some ∧
    j.references.map q.name? = names.map some

def Code.Alike (p q : Pool) (a b : Code) : Prop := List.Forall₂ (Instruction.Alike p q) a b

section

variable {p q p' q' : Pool}

theorem Pool.Extends.name? (h : p.Extends q) {r : Reference} {name : String}
    (hr : p.name? r = some name) : q.name? r = some name := by
  cases r with
  | string s => exact h.strings.get? hr
  | symbol s => exact h.symbols.get? hr

theorem Pool.Extends.map_name? (h : p.Extends q) {rs : List Reference} {names : List String}
    (hrs : rs.map p.name? = names.map some) : rs.map q.name? = names.map some := by
  induction rs generalizing names with
  | nil =>
    cases names with
    | nil => rfl
    | cons name names => cases hrs
  | cons r rs ih =>
    cases names with
    | nil => cases hrs
    | cons name names =>
      simp only [List.map_cons, List.cons.injEq] at hrs ⊢
      exact ⟨h.name? hrs.1, ih hrs.2⟩

theorem SymbolId.Alike.mono (hp : p.Extends p') (hq : q.Extends q') {s t : SymbolId}
    (h : s.Alike p q t) : s.Alike p' q' t := by
  obtain ⟨name, hs, ht⟩ := h
  exact ⟨name, hp.symbols.get? hs, hq.symbols.get? ht⟩

theorem Instruction.Alike.mono (hp : p.Extends p') (hq : q.Extends q') {i j : Instruction}
    (h : i.Alike p q j) : i.Alike p' q' j := by
  obtain ⟨hform, names, hi, hj⟩ := h
  exact ⟨hform, names, hp.map_name? hi, hq.map_name? hj⟩

theorem Code.Alike.mono (hp : p.Extends p') (hq : q.Extends q') {a b : Code}
    (h : a.Alike p q b) : a.Alike p' q' b :=
  List.Forall₂.imp (fun _ _ hij => hij.mono hp hq) h

theorem Instruction.Alike.symm {i j : Instruction} (h : i.Alike p q j) : j.Alike q p i := by
  obtain ⟨hform, names, hi, hj⟩ := h
  exact ⟨hform.symm, names, hj, hi⟩

theorem Code.Alike.symm {a b : Code} (h : a.Alike p q b) : b.Alike q p a :=
  List.Forall₂.flip (List.Forall₂.imp (fun _ _ hij => hij.symm) h)

theorem Instruction.Alike.named_eq {i j : Instruction} (h : i.Alike p q j) :
    i.named p = j.named q := by
  obtain ⟨hform, names, hi, hj⟩ := h
  rw [named, named, hform, hi, hj]

theorem Code.Alike.named_eq {a b : Code} (h : a.Alike p q b) :
    a.map (·.named p) = b.map (·.named q) :=
  map_eq_of_rel h fun _ _ hij => hij.named_eq

/-! Instructions that are alike. -/

theorem Instruction.size_form (i : Instruction) : i.form.size = i.size := by cases i <;> rfl

theorem Code.Alike.size_eq {a b : Code} (h : a.Alike p q b) : a.size = b.size := by
  induction h with
  | nil => rfl
  | @cons i j _ _ hij _ ih =>
    rw [Code.size_cons, Code.size_cons, ih, ← i.size_form, ← j.size_form, hij.1]

theorem Code.Alike.append {a b c d : Code} (h : a.Alike p q b) (k : c.Alike p q d) :
    (a ++ c : Code).Alike p q (b ++ d) :=
  List.rel_append h k

theorem Code.Alike.one {i j : Instruction} (h : i.Alike p q j) : Code.Alike p q [i] [j] :=
  .cons h .nil

/-! Linking keeps what is alike. -/

theorem Instruction.form_linked (place : String → UInt32) (i : Instruction) :
    (i.linked place).form = i.form.linked place := by cases i <;> rfl

theorem Instruction.references_linked (place : String → UInt32) (i : Instruction) :
    (i.linked place).references = i.references := by cases i <;> rfl

theorem Instruction.Alike.linked {i j : Instruction} (h : i.Alike p q j)
    (place : String → UInt32) : (i.linked place).Alike p q (j.linked place) := by
  obtain ⟨hform, names, hi, hj⟩ := h
  refine ⟨by rw [form_linked, form_linked, hform], names, ?_, ?_⟩
  · rw [references_linked, hi]
  · rw [references_linked, hj]

theorem Code.Alike.linked {a b : Code} (h : a.Alike p q b) (place : String → UInt32) :
    (a.linked place).Alike p q (b.linked place) := by
  induction h with
  | nil => exact .nil
  | cons hij _ ih => exact .cons (hij.linked place) ih

end

end Lss
