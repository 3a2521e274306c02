import Lss.Proofs.Grouped
import Lss.Proofs.Kinds

/-!
# Formed expressions on the stack

Reading back leaves formed expressions on the stack, and the statements that it completes are
formed, whatever code they belong to. Only names and numbers that no text can stand for are ruled
out.
-/
namespace Lss

/-- The names of variables until locals are named: names of a program and placeholders. -/
def IsVariable (text : String) : Prop := IsName text ∨ text.toList.head? = some '$'

abbrev Expr.Lifted (e : Expr) : Prop := e.Formed IsVariable True False

abbrev Stmt.Lifted (s : Stmt) : Prop := s.Formed IsVariable True False

/-! Names of a container. -/

def Code.Finite (code : Code) : Prop := ∀ x, .pushFloat x ∈ code → x.isFinite

structure Container.Writable (c : Container) : Prop where
  symbols : ∀ name ∈ c.symbols.toList, IsName name
  globals : ∀ name ∈ c.globals.toList, IsName name
  functions : ∀ f ∈ c.functions, IsName f.name ∧ f.code.Finite
  classes : ∀ k ∈ c.classes, IsName k.name ∧ ∀ m ∈ k.methods, m.code.Finite

/-- No word of the language has a digit in it. -/
theorem ofWord_of_isDigit {w : String} {c : Char} (hmem : c ∈ w.toList) (hc : c.isDigit) :
    TokenKind.ofWord w = .identifier := by
  have hk : ∀ k : Keyword, k.text.toList.all (!·.isDigit) := by
    intro k
    cases k <;> decide
  have hp : ∀ p : Property, p.text.toList.all (!·.isDigit) := by
    intro p
    cases p <;> decide
  have hne {w' : String} (h : w'.toList.all (!·.isDigit)) : ¬ (w' == w) = true := by
    intro heq
    rw [beq_iff_eq] at heq
    subst heq
    simpa [hc] using List.all_eq_true.mp h c hmem
  unfold TokenKind.ofWord
  rw [List.find?_eq_none.mpr fun k _ => hne (hk k), List.find?_eq_none.mpr fun p _ => hne (hp p)]

theorem isName_numbered {stem : String} (h : isWord stem.toList) (n : Nat) :
    IsName (stem ++ toString n) := by
  have hdigits : (toString n).toList = Nat.toDigits 10 n := by
    rw [Nat.toString_eq_ofList_toDigits, String.toList_ofList]
  obtain ⟨d, hd⟩ := List.exists_mem_of_ne_nil _ (Nat.toDigits_ne_nil (b := 10) (n := n))
  have hword : isWord (stem ++ toString n).toList := by
    rw [String.toList_append, hdigits]
    cases hs : stem.toList with
    | nil =>
      rw [hs] at h
      cases h
    | cons c cs =>
      rw [hs] at h
      simp only [isWord, Bool.and_eq_true, List.all_eq_true, List.cons_append] at h ⊢
      refine ⟨h.1, fun x hx => ?_⟩
      rcases List.mem_append.mp hx with hx | hx
      · exact h.2 x hx
      · exact Lexeme.continuesWord_of_isDigit (isDigit_toDigits n x hx)
  have hident : TokenKind.ofWord (stem ++ toString n) = .identifier := by
    refine ofWord_of_isDigit (c := d) ?_ (isDigit_toDigits n d hd)
    rw [String.toList_append, hdigits]
    exact List.mem_append_right _ hd
  exact .of_isWord hword hident

namespace SlotNames

theorem isName_parameter (names : SlotNames) {slot : Nat} (h : names.first ≤ slot)
    (hlt : slot < names.first + names.parameterCount.toNat) : (names.token slot).IsName := by
  unfold token
  split
  · next hthis =>
    simp only [Bool.and_eq_true, beq_iff_eq] at hthis
    rw [hthis.2, first, hthis.1] at h
    cases h
  · rw [if_pos ⟨h, hlt⟩]
    exact ⟨rfl, isName_numbered (by decide) _⟩

theorem lifted_token (names : SlotNames) (slot : Nat) :
    (Expr.variable (names.token slot)).Lifted := by
  by_cases h : names.first ≤ slot ∧ slot < names.first + names.parameterCount.toNat
  · obtain ⟨hk, hn⟩ := names.isName_parameter h.1 h.2
    exact .name hk (.inl hn)
  · unfold token
    split
    · exact Expr.formed_this
    · exact .name rfl (.inr (by simp [Token.identifier, Token.synthetic]))

end SlotNames

variable {c : Container}

def Kinds.lifted : Kinds where
  float x := x.isFinite
  type := Token.IsName
  expr := Expr.Lifted
  callee := Expr.Reached IsVariable True
  stmt := Stmt.Lifted

theorem elseArm_lifted {ss : List Stmt} (h : ∀ s ∈ ss, s.Lifted) : (Body.elseArm ss).Lifted := by
  unfold Body.elseArm
  split
  · exact h _ List.mem_cons_self
  · exact .block h

theorem Kinds.lifted_closed (hc : c.Writable) (names : SlotNames) :
    Kinds.lifted.Closed c names where
  word h := .literal h (Keyword.spelled _)
  integer := Expr.formed_integer
  float := Expr.formed_float
  string := Expr.formed_string
  this := Expr.formed_this
  global h := .name rfl (.inl (hc.globals _ h))
  slot := names.lifted_token
  binary op hl hr := hl.ofBinary hr op
  unary op he := he.ofUnary op
  property p he := (he.reachedMember (.inr rfl) p.spelled).formed
  member he hn :=
    have h := he.reachedName (hc.symbols _ hn)
    ⟨h.formed, h⟩
  dynamicMember hl hr :=
    have h := hl.reachedDynamic hr (.inl rfl)
    ⟨h.formed, h⟩
  scope hs hn :=
    have h := (Expr.Reached.name (.inl (hc.symbols _ hs))).formed.reachedScope (hc.symbols _ hn)
    ⟨h.formed, h⟩
  dynamicScope hs he :=
    have h := (Expr.Reached.name (.inl (hc.symbols _ hs))).formed.reachedDynamic he (.inr rfl)
    ⟨h.formed, h⟩
  index ha hi := (ha.reachedIndex hi).formed
  arrayOp op he := he.reachedName op.isName_name
  function hf := Expr.Reached.name (.inl (hc.functions _ hf).1)
  call hf hlen hes := hf.ofCall hlen hes
  array hes := .array hes
  type hn := ⟨rfl, hc.symbols _ hn⟩
  new ht := .new ht.1 ht.spelled
  construct ht hlen hes := .construct ht.1 ht.spelled (fun _ => hlen) hes
  pending _ h := nomatch h
  assign ht hv := .assign ht hv
  evaluate he := .expr he
  return_ he := he.ofReturn
  if_ hc hss := .if_ hc (.block hss)
  ifElse hc hss hts := .ifElse hc (.block hss) rfl (elseArm_lifted hts)
  while_ hc hss := .while_ hc (.block hss)
  doWhile hss hc := .doWhile (.block hss) hc

theorem Body.statements_lifted {b : Body} (hc : c.Writable) (hlib : b.library = .ofContainer c)
    (hcode : ∀ x, .pushFloat x ∈ b.code → x.isFinite) {ss : List Stmt}
    (h : b.statements = .ok ss) : ∀ s ∈ ss, s.Lifted :=
  kind_of_statements (Kinds.lifted_closed hc b.names) hlib hcode h

end Lss
