import Lss.Proofs.Straight

/-!
# Kinds kept by reading back

A kind of expressions that is kept by all that reading back builds is kept by every step of any
code, whether it was compiled or not, and what a step completes is a statement of that kind.
-/
namespace Lss

/-- Numbers, names of classes, expressions, what is called, and statements, each of a kind. -/
structure Kinds where
  float : Binary32 → Prop
  type : Token → Prop
  expr : Expr → Prop
  callee : Expr → Prop
  stmt : Stmt → Prop

namespace Kinds

structure Closed (K : Kinds) (c : Container) (names : SlotNames) : Prop where
  word {k : Keyword} : Parser.isLiteral (.keyword k) → K.expr (.literal (.of (.keyword k)))
  integer (n : Int) : K.expr (.literal (.integer n))
  float {x : Binary32} : K.float x → K.expr (.literal (.float x))
  string (value : String) : K.expr (.literal (.string value))
  this : K.expr .this
  global {name : String} : name ∈ c.globals.toList → K.expr (.name name)
  slot (n : Nat) : K.expr (.variable (names.token n))
  binary {l r : Expr} (op : BinaryOp) : K.expr l → K.expr r → K.expr (l.ofBinary (.binary op) r)
  unary {e : Expr} (op : UnaryOp) : K.expr e → K.expr (e.ofUnary op.kind)
  property {e : Expr} (p : Property) :
    K.expr e → K.expr (e.ofAccess (.access .member) (.variable (.of (.property p))))
  member {e : Expr} {name : String} : K.expr e → name ∈ c.symbols.toList →
    K.expr (e.ofMember name) ∧ K.callee (e.ofMember name)
  dynamicMember {l r : Expr} : K.expr l → K.expr r →
    K.expr (l.ofAccess (.access .dynamicMember) r) ∧
      K.callee (l.ofAccess (.access .dynamicMember) r)
  scope {space name : String} : space ∈ c.symbols.toList → name ∈ c.symbols.toList →
    K.expr ((Expr.name space).ofAccess (.access .scope) (.name name)) ∧
      K.callee ((Expr.name space).ofAccess (.access .scope) (.name name))
  dynamicScope {space : String} {e : Expr} : space ∈ c.symbols.toList → K.expr e →
    K.expr ((Expr.name space).ofAccess (.access .dynamicScope) e) ∧
      K.callee ((Expr.name space).ofAccess (.access .dynamicScope) e)
  index {a i : Expr} : K.expr a → K.expr i → K.expr (a.ofIndex i)
  arrayOp {e : Expr} (op : ArrayOp) : K.expr e → K.callee (e.ofMember op.name)
  function {f : FunctionEntry} : f ∈ c.functions → K.callee (.name f.name)
  call {f : Expr} {es : List Expr} : K.callee f → es.length ≤ ParseFault.maxArguments →
    (∀ e ∈ es, K.expr e) → K.expr (f.ofCall es)
  array {es : List Expr} : (∀ e ∈ es, K.expr e) → K.expr (.array es .synthetic)
  type {name : String} : name ∈ c.symbols.toList → K.type (.identifier name)
  new {t : Token} : K.type t → K.expr (.construct t none .synthetic)
  construct {t : Token} {es : List Expr} : K.type t → es.length ≤ ParseFault.maxArguments →
    (∀ e ∈ es, K.expr e) → K.expr (.construct t (some es) .synthetic)
  pending (t : Token) : ¬ K.expr (.pending t)
  assign {t v : Expr} : K.expr t → K.expr v → K.stmt (.assign t v)
  evaluate {e : Expr} : K.expr e → K.stmt (.expr e)
  return_ {e : Expr} : K.expr e → K.stmt (.ofReturn e)
  if_ {e : Expr} {ss : List Stmt} : K.expr e → (∀ s ∈ ss, K.stmt s) →
    K.stmt (.if_ (some e) (.ofList ss) none .synthetic)
  ifElse {e : Expr} {ss ts : List Stmt} : K.expr e → (∀ s ∈ ss, K.stmt s) →
    (∀ s ∈ ts, K.stmt s) → K.stmt (.if_ (some e) (.ofList ss)
      (some (.if_ none (Body.elseArm ts) none .synthetic)) .synthetic)
  while_ {e : Expr} {ss : List Stmt} : K.expr e → (∀ s ∈ ss, K.stmt s) →
    K.stmt (.while_ e (.ofList ss))
  doWhile {e : Expr} {ss : List Stmt} : (∀ s ∈ ss, K.stmt s) → K.expr e →
    K.stmt (.doWhile (.ofList ss) e)

inductive Value (K : Kinds) : StackValue → Prop
  | expr {e : Expr} : K.expr e → Value K (.expr e)
  | pending {type : Token} : K.type type → Value K (.expr (.pending type))
  | method {name : Token} : Value K (.method name)
  | constructed {type : Token} {es : List Expr} : K.type type →
      es.length ≤ ParseFault.maxArguments → (∀ e ∈ es, K.expr e) → Value K (.constructed type es)

abbrev Stack (K : Kinds) (stack : OperandStack) : Prop := ∀ v ∈ stack, K.Value v

variable {K : Kinds}

theorem Stack.nil : K.Stack [] := nofun

theorem Stack.cons {v : StackValue} {stack : OperandStack} (hv : K.Value v) (h : K.Stack stack) :
    K.Stack (v :: stack) :=
  List.forall_mem_cons.mpr ⟨hv, h⟩

theorem Stack.tail {v : StackValue} {stack : OperandStack} (h : K.Stack (v :: stack)) :
    K.Stack stack :=
  (List.forall_mem_cons.mp h).2

end Kinds

namespace Stacked

variable {K : Kinds} {c : Container} {names : SlotNames} {α β : Type} {Q : α → Prop}

/-- Values of these kinds stay on the stack, and the result, if there is one, is as `Q` says. -/
def Keeps (K : Kinds) (f : Stacked α) (Q : α → Prop) : Prop :=
  ∀ stack : OperandStack, K.Stack stack →
    K.Stack (f.run.run stack).2 ∧ ∀ a, (f.run.run stack).1 = .ok a → Q a

theorem Keeps.pure {a : α} (h : Q a) : Keeps K (pure a) Q := by
  intro stack hstack
  refine ⟨hstack, fun b hb => ?_⟩
  cases hb
  exact h

theorem Keeps.throw (e : DecompileError) : Keeps K (throw e) Q :=
  fun _ hstack => ⟨hstack, fun _ h => nomatch h⟩

theorem Keeps.bind {f : Stacked α} {g : α → Stacked β} {R : β → Prop} (hf : Keeps K f Q)
    (hg : ∀ a, Q a → Keeps K (g a) R) : Keeps K (f >>= g) R := by
  intro stack hstack
  obtain ⟨hrest, ha⟩ := hf stack hstack
  rw [run_bind]
  split
  · next a rest heq =>
    rw [heq] at hrest ha
    exact hg a (ha a rfl) rest hrest
  · next e rest heq =>
    rw [heq] at hrest
    exact ⟨hrest, fun _ h => nomatch h⟩

theorem keeps_pushValue {v : StackValue} (h : K.Value v) : Keeps K (pushValue v) fun _ => True :=
  fun _ hstack => ⟨.cons h hstack, fun _ _ => trivial⟩

theorem keeps_push {e : Expr} (h : K.expr e) : Keeps K (push e) fun _ => True :=
  keeps_pushValue (.expr h)

theorem keeps_popValue (place : Nat) : Keeps K (popValue place) K.Value := by
  intro stack hstack
  cases stack with
  | nil => exact ⟨hstack, fun _ h => nomatch h⟩
  | cons v stack =>
    refine ⟨hstack.tail, fun w hw => ?_⟩
    cases hw
    exact hstack v List.mem_cons_self

theorem keeps_dup (place : Nat) : Keeps K (dup place) fun _ => True := by
  intro stack hstack
  cases stack with
  | nil => exact ⟨hstack, fun _ _ => trivial⟩
  | cons v stack => exact ⟨.cons (hstack v List.mem_cons_self) hstack, fun _ _ => trivial⟩

theorem keeps_get : Keeps K get K.Stack := by
  intro stack hstack
  refine ⟨hstack, fun s hs => ?_⟩
  cases hs
  exact hstack

theorem keeps_set {stack : OperandStack} (h : K.Stack stack) : Keeps K (set stack) fun _ => True :=
  fun _ _ => ⟨h, fun _ _ => trivial⟩

section

variable (hK : K.Closed c names)
include hK

/-- The expression that a value stands for. -/
theorem kind_of_valueOf {v : StackValue} {place : Nat} {e : Expr} (hv : K.Value v)
    (h : valueOf place v = .ok e) : K.expr e := by
  cases hv with
  | @expr e' he =>
    cases e' with
    | pending t => exact absurd he (hK.pending t)
    | _ =>
      cases h
      exact he
  | pending ht =>
    cases h
    exact hK.new ht
  | method => cases h
  | constructed => cases h

theorem keeps_pop (place : Nat) : Keeps K (pop place) K.expr := by
  intro stack hstack
  cases stack with
  | nil => exact ⟨hstack, fun _ h => nomatch h⟩
  | cons v stack =>
    exact ⟨hstack.tail, fun e he => kind_of_valueOf hK (hstack v List.mem_cons_self) he⟩

theorem keeps_popOnto {acc : List Expr} (hacc : ∀ e ∈ acc, K.expr e) (place n : Nat) :
    Keeps K (popOnto acc place n) fun es => es.length = n + acc.length ∧ ∀ e ∈ es, K.expr e := by
  induction n generalizing acc with
  | zero => exact .pure ⟨by simp, hacc⟩
  | succ n ih =>
    refine .bind (keeps_pop hK place) fun e he => ?_
    have := ih (List.forall_mem_cons.mpr ⟨he, hacc⟩)
    rwa [List.length_cons, ← Nat.add_assoc, Nat.add_right_comm] at this

theorem keeps_popMany (n place : Nat) :
    Keeps K (popMany n place) fun es => es.length = n ∧ ∀ e ∈ es, K.expr e :=
  keeps_popOnto hK (fun _ h => absurd h List.not_mem_nil) place n

/-- A byte says how many arguments there are. -/
theorem keeps_popArguments (argc : UInt8) (place : Nat) : Keeps K (popMany argc.toNat place)
    fun es => es.length ≤ ParseFault.maxArguments ∧ ∀ e ∈ es, K.expr e := by
  intro stack hstack
  obtain ⟨hrest, h⟩ := keeps_popMany hK argc.toNat place stack hstack
  refine ⟨hrest, fun es hes => ?_⟩
  obtain ⟨hlen, hall⟩ := h es hes
  refine ⟨?_, hall⟩
  rw [hlen]
  exact Nat.le_of_lt_succ argc.toNat_lt

theorem keeps_apply {f : Expr → Expr} (h : ∀ e : Expr, K.expr e → K.expr (f e)) (place : Nat) :
    Keeps K (apply f place) fun _ => True :=
  .bind (keeps_pop hK place) fun e he => keeps_push (h e he)

theorem keeps_applyTwo {f : Expr → Expr → Expr}
    (h : ∀ l r : Expr, K.expr l → K.expr r → K.expr (f l r)) (place : Nat) :
    Keeps K (applyTwo f place) fun _ => True :=
  .bind (keeps_pop hK place) fun r hr => .bind (keeps_pop hK place) fun l hl =>
    keeps_push (h l r hl hr)

end

end Stacked

/-! Names of a container. -/

theorem NameTable.mem_of_resolve {t : NameTable} {id : TableId} {i : UInt16} {name : String}
    (h : t.resolve id i = .ok name) : name ∈ t.toList := by
  unfold resolve at h
  split at h
  · next name' hget =>
    cases h
    rw [get?_eq] at hget
    exact List.mem_of_getElem? hget
  · cases h

namespace Library

open Stacked

variable {K : Kinds} {c : Container} {names : SlotNames}

theorem keeps_symbol (s : SymbolId) :
    Keeps K ((ofContainer c).symbol s) (· ∈ c.symbols.toList) := by
  unfold Library.symbol
  split
  · next name hname => exact .pure (NameTable.mem_of_resolve hname)
  · exact .throw _

theorem keeps_string (l : Library) (s : StringId) : Keeps K (l.string s) fun _ => True := by
  unfold Library.string
  split
  · exact .pure trivial
  · exact .throw _

theorem keeps_slot (hK : K.Closed c names) (s : Slot) :
    Keeps K ((ofContainer c).slot names s) K.expr := by
  unfold Library.slot
  split
  · split
    · next name hname => exact .pure (hK.global (NameTable.mem_of_resolve hname))
    · exact .throw _
  · exact .pure (hK.slot _)

theorem keeps_function (hK : K.Closed c names) (target : UInt32) :
    Keeps K ((ofContainer c).function target) fun name => K.callee (.name name) := by
  unfold Library.function
  split
  · next name hname =>
    refine .pure ?_
    rcases mem_of_foldl_insertIfNew hname with h | ⟨f, hf, -, rfl⟩
    · simp at h
    · exact hK.function (List.of_mem_zip hf).1
  · exact .throw _

theorem keeps_inScope (hK : K.Closed c names) (space : SymbolId) {name : String}
    (hn : name ∈ c.symbols.toList) : Keeps K ((ofContainer c).inSpace space .scope (.name name))
      fun e => K.expr e ∧ K.callee e :=
  .bind (keeps_symbol space) fun _ hspace => .pure (hK.scope hspace hn)

theorem keeps_inDynamicScope (hK : K.Closed c names) (space : SymbolId) {e : Expr}
    (he : K.expr e) : Keeps K ((ofContainer c).inSpace space .dynamicScope e)
      fun e => K.expr e ∧ K.callee e :=
  .bind (keeps_symbol space) fun _ hspace => .pure (hK.dynamicScope hspace he)

end Library

section

open Stacked Library

variable {K : Kinds} {c : Container} {names : SlotNames}

abbrev Kinds.Completed (K : Kinds) (r : Option Stmt) : Prop := ∀ s ∈ r, K.stmt s

/-- A construction is completed below its value; any other value makes a statement. -/
theorem keeps_step_pop (hK : K.Closed c names) (place : Nat) :
    Keeps K (step (ofContainer c) names .pop place) K.Completed := by
  have hexpr {e : Expr} (h : K.expr e) : Keeps K (pure (some (.expr e))) K.Completed := by
    refine .pure fun s hs => ?_
    cases hs
    exact hK.evaluate h
  refine .bind (keeps_popValue place) fun v hv => ?_
  split
  · refine .bind keeps_get fun stack hstack => ?_
    split
    · cases hv with
      | constructed ht hlen hes =>
        exact .bind (keeps_set (.cons (.expr (hK.construct ht hlen hes)) hstack.tail)) fun _ _ =>
          .pure nofun
    · exact .throw _
  · cases hv with
    | expr he => exact absurd he (hK.pending _)
    | pending ht => exact hexpr (hK.new ht)
  · next hne =>
    cases hv with
    | expr he => exact hexpr he
    | pending => exact absurd rfl (hne _)
  · exact .throw _

theorem keeps_step (hK : K.Closed c names) {i : Instruction}
    (hi : ∀ x, i = .pushFloat x → K.float x)
    (place : Nat) : Keeps K (step (ofContainer c) names i place) K.Completed := by
  have hnone {f : Stacked Unit} (h : Keeps K f fun _ => True) :
      Keeps K (do f; return none) K.Completed := .bind h fun _ _ => .pure nofun
  have hpush {e : Expr} (h : K.expr e) : Keeps K (do Stacked.push e; return none) K.Completed :=
    hnone (keeps_push h)
  have hassign {t v : Expr} (ht : K.expr t) (hv : K.expr v) :
      Keeps K (pure (some (.assign t v))) K.Completed := by
    refine .pure fun s hs => ?_
    cases hs
    exact hK.assign ht hv
  cases i with
  | binary op => exact hnone (keeps_applyTwo hK (fun _ _ hl hr => hK.binary op hl hr) place)
  | property p => exact hnone (keeps_apply hK (fun _ he => hK.property p he) place)
  | array op =>
    refine .bind (keeps_popMany hK op.arity place) fun es hes =>
      hnone (keeps_apply hK (fun e he => ?_) place)
    refine hK.call (hK.arrayOp op he) ?_ hes.2
    rw [hes.1]
    cases op <;> decide
  | pushNothing | pushTrue | pushFalse => exact hpush (hK.word rfl)
  | pushZero | pushInt8 | pushInt16 | pushInt32 => exact hpush (hK.integer _)
  | pushFloat x => exact hpush (hK.float (hi x rfl))
  | pushString s => exact .bind (keeps_string _ s) fun value _ => hpush (hK.string value)
  | getVariable s => exact .bind (keeps_slot hK s) fun e he => hpush he
  | setVariable s =>
    exact .bind (keeps_pop hK place) fun value hv => .bind (keeps_slot hK s) fun e he =>
      hassign he hv
  | getMember m =>
    exact .bind (keeps_pop hK place) fun e he => .bind (keeps_symbol m) fun name hn =>
      hpush (hK.member he hn).1
  | setMember m =>
    exact .bind (keeps_pop hK place) fun value hv => .bind (keeps_pop hK place) fun e he =>
      .bind (keeps_symbol m) fun name hn => hassign (hK.member he hn).1 hv
  | getThisMember m =>
    exact .bind (keeps_symbol m) fun name hn => hpush (hK.member hK.this hn).1
  | setThisMember m =>
    exact .bind (keeps_pop hK place) fun value hv => .bind (keeps_symbol m) fun name hn =>
      hassign (hK.member hK.this hn).1 hv
  | getDynamicMember =>
    exact hnone (keeps_applyTwo hK (fun _ _ hl hr => (hK.dynamicMember hl hr).1) place)
  | setDynamicMember =>
    exact .bind (keeps_pop hK place) fun value hv => .bind (keeps_pop hK place) fun name hn =>
      .bind (keeps_pop hK place) fun e he => hassign (hK.dynamicMember he hn).1 hv
  | getGameVariable space name =>
    exact .bind (keeps_symbol name) fun name hn =>
      .bind (keeps_inScope hK space hn) fun e he => hpush he.1
  | setGameVariable space name =>
    exact .bind (keeps_pop hK place) fun value hv => .bind (keeps_symbol name) fun name hn =>
      .bind (keeps_inScope hK space hn) fun e he => hassign he.1 hv
  | getDynamicGameVariable space =>
    exact .bind (keeps_pop hK place) fun name hn =>
      .bind (keeps_inDynamicScope hK space hn) fun e he => hpush he.1
  | getElement => exact hnone (keeps_applyTwo hK (fun _ _ hl hr => hK.index hl hr) place)
  | setElement =>
    exact .bind (keeps_pop hK place) fun value hv => .bind (keeps_pop hK place) fun at_ ha =>
      .bind (keeps_pop hK place) fun e he => hassign (hK.index he ha) hv
  | createArray n =>
    exact .bind (keeps_popMany hK n.toNat place) fun es hes => hpush (hK.array hes.2)
  | unary op => exact hnone (keeps_apply hK (fun _ he => hK.unary op he) place)
  | callFunction target argc =>
    exact .bind (keeps_function hK target) fun f hf =>
      .bind (keeps_popArguments hK argc place) fun es hes => hpush (hK.call hf hes.1 hes.2)
  | callGameFunction space name argc =>
    exact .bind (keeps_popArguments hK argc place) fun es hes =>
      .bind (keeps_symbol name) fun name hn =>
        .bind (keeps_inScope hK space hn) fun e he => hpush (hK.call he.2 hes.1 hes.2)
  | callDynamicGameFunction space argc =>
    exact .bind (keeps_popArguments hK argc place) fun es hes =>
      .bind (keeps_pop hK place) fun name hn =>
        .bind (keeps_inDynamicScope hK space hn) fun e he => hpush (hK.call he.2 hes.1 hes.2)
  | callMethod m argc =>
    exact .bind (keeps_popArguments hK argc place) fun es hes =>
      .bind (keeps_pop hK place) fun _ _ =>
      .bind (keeps_pop hK place) fun e he => .bind (keeps_symbol m) fun name hn =>
        hpush (hK.call (hK.member he hn).2 hes.1 hes.2)
  | callThisMethod m argc =>
    exact .bind (keeps_popArguments hK argc place) fun es hes =>
      .bind (keeps_symbol m) fun name hn => hpush (hK.call (hK.member hK.this hn).2 hes.1 hes.2)
  | callDynamicMethod argc =>
    exact .bind (keeps_popArguments hK argc place) fun es hes =>
      .bind (keeps_pop hK place) fun name hn => .bind (keeps_pop hK place) fun _ _ =>
        .bind (keeps_pop hK place) fun e he =>
          hpush (hK.call (hK.dynamicMember he hn).2 hes.1 hes.2)
  | createObject type =>
    exact .bind (keeps_symbol type) fun name hn => hnone (keeps_pushValue (.pending (hK.type hn)))
  | lookupMethod m =>
    exact .bind (keeps_symbol m) fun name hn => hnone (keeps_pushValue .method)
  | callIndirect argc =>
    refine .bind (keeps_popValue place) fun v hv => ?_
    split
    · refine .bind (keeps_popArguments hK argc place) fun es hes => ?_
      refine .bind (keeps_popValue place) fun v hv => ?_
      split
      · split
        · cases hv with
          | expr he => exact absurd he (hK.pending _)
          | pending ht => exact hnone (keeps_pushValue (.constructed ht hes.1 hes.2))
        · exact .throw _
      · exact .throw _
    · exact .throw _
  | pop => exact keeps_step_pop hK place
  | dup => exact hnone (keeps_dup place)
  | return_ =>
    refine .bind (keeps_pop hK place) fun value hv => .pure fun s hs => ?_
    cases hs
    exact hK.return_ hv
  | lineNumber n => exact .pure nofun
  | branch | allocateLocals | checkArgumentCount | unresolvedCall => exact .throw _

end

/-! Bodies. -/

namespace Body

open Stacked Library

variable {K : Kinds} {c : Container} {names : SlotNames} {b : Body}

def Yields (K : Kinds) (r : Except DecompileError (List Stmt × OperandStack)) : Prop :=
  ∀ ss rest, r = .ok (ss, rest) → (∀ s ∈ ss, K.stmt s) ∧ K.Stack rest

theorem Yields.settled {r : Except DecompileError (List Stmt × OperandStack)} (h : Yields K r)
    {stop : Nat} {body : List Stmt} (hr : r.bind (settled stop) = .ok body) :
    ∀ s ∈ body, K.stmt s := by
  obtain ⟨⟨ss, rest⟩, hok, hbody⟩ := bind_ok hr
  unfold Body.settled at hbody
  split at hbody
  · cases hbody
    exact (h ss rest hok).1
  · cases hbody

theorem kind_of_condition (hK : K.Closed c names) {i : Nat} {stack : OperandStack} {e : Expr}
    (hstack : K.Stack stack) (h : condition i stack = .ok e) : K.expr e := by
  cases stack with
  | nil => cases h
  | cons v below =>
    unfold condition at h
    dsimp only at h
    split at h
    · cases h
    · next e he =>
      split at h
      · cases h
        exact kind_of_valueOf hK (hstack v List.mem_cons_self) he
      · cases h

theorem region_yields (hK : K.Closed c b.names) (hlib : b.library = ofContainer c)
    (hcode : ∀ x, .pushFloat x ∈ b.code → K.float x) (stack : OperandStack) (acc : List Stmt)
    (i stop : Nat) (hstack : K.Stack stack) (hacc : ∀ s ∈ acc, K.stmt s) :
    Yields K (b.region stack acc i stop) := by
  have hnone : ∀ s ∈ ([] : List Stmt), K.stmt s := fun _ h => absurd h List.not_mem_nil
  have hstep {instruction : Instruction} {i : Nat} {stack rest : OperandStack} {r : Option Stmt}
      (hi : b.code[i]? = some instruction) (hstack : K.Stack stack)
      (hrun : (step b.library b.names instruction i).run.run stack = (.ok r, rest)) :
      K.Stack rest ∧ K.Completed r := by
    have hfloat : ∀ x, instruction = .pushFloat x → K.float x := by
      rintro x rfl
      exact hcode x (Array.mem_of_getElem? hi)
    have hkeeps := keeps_step hK hfloat i stack hstack
    rw [← hlib, hrun] at hkeeps
    exact ⟨hkeeps.1, hkeeps.2 r rfl⟩
  -- The stretches inside a loop or a condition start without values and without statements.
  fun_induction region b stack acc i stop with
  | case4 stack acc i stop _ _ back _ _ _ _ _ body value hbody test htest ihbody ih =>
    obtain ⟨hss, hvalue⟩ := ihbody .nil hnone _ _ hbody
    have hc := kind_of_valueOf hK (hvalue value List.mem_cons_self) htest
    exact ih hstack (List.forall_mem_cons.mpr ⟨hK.doWhile hss hc, hacc⟩)
  | case10 stack acc i stop _ _ back _ _ _ exit _ _ value hexit test htest body hbody _ ihtest
      ihbody ih =>
    obtain ⟨-, hvalue⟩ := ihtest .nil hnone _ _ hexit
    have hc := kind_of_valueOf hK (hvalue value List.mem_cons_self) htest
    have hss := (ihbody .nil hnone).settled hbody
    exact ih hstack (List.forall_mem_cons.mpr ⟨hK.while_ hc hss, hacc⟩)
  | case17 stack acc i stop _ _ _ _ test htest t _ _ body hbody _ ihbody ih =>
    have hss := (ihbody .nil hnone).settled hbody
    have hc := kind_of_condition hK hstack htest
    exact ih .nil (List.forall_mem_cons.mpr ⟨hK.if_ hc hss, hacc⟩)
  | case20 stack acc i stop _ _ _ _ test htest last join _ _ _ body hbody body' harm arm _ ihbody
      iharm ih =>
    have hss := (ihbody .nil hnone).settled hbody
    have hss' := (iharm .nil hnone).settled harm
    have hc := kind_of_condition hK hstack htest
    exact ih .nil (List.forall_mem_cons.mpr ⟨hK.ifElse hc hss hss', hacc⟩)
  | case22 stack acc i stop _ _ _ ih => exact ih hstack hacc
  | case26 stack acc i stop _ instruction _ _ _ _ hi rest hrun ih =>
    exact ih (hstep hi hstack hrun).1 hacc
  | case27 stack acc i stop _ instruction _ _ _ _ hi s rest hrun ih =>
    obtain ⟨hrest, hs⟩ := hstep hi hstack hrun
    exact ih hrest (List.forall_mem_cons.mpr ⟨hs s rfl, hacc⟩)
  | case28 stack acc i stop _ =>
    intro ss rest h
    cases h
    exact ⟨fun s hs => hacc s (List.mem_reverse.mp hs), hstack⟩
  | _ => exact fun _ _ h => nomatch h

/-- What a body says is of the kind. -/
theorem kind_of_statements (hK : K.Closed c b.names) (hlib : b.library = ofContainer c)
    (hcode : ∀ x, .pushFloat x ∈ b.code → K.float x) {ss : List Stmt}
    (h : b.statements = .ok ss) : ∀ s ∈ ss, K.stmt s :=
  (region_yields hK hlib hcode [] [] 0 b.code.size .nil
    fun _ h => absurd h List.not_mem_nil).settled h

end Body

end Lss
