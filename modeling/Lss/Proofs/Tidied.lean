import Lss.Lifting.Tidy
import Lss.Proofs.Lifted
import Lss.Proofs.Rewritten

/-!
# Tidy bodies

Tidying keeps bodies formed and leaves no placeholder: every local that is met anywhere is declared
in the body itself, and each declaration gives it a name.
-/
namespace Lss

/-- No name and no word of the language can be taken for a placeholder. -/
theorem Spells.head_ne_dollar {kind : TokenKind} {text : List Char} (h : Spells kind text)
    (hk : kind.isMark = false) : text.head? ≠ some '$' := by
  obtain ⟨c, cs, rfl, hc⟩ := h.first hk
  rintro ⟨⟩
  exact absurd hc (by decide)

/-! Loops over collections. -/

namespace Expr

variable {N : String → Prop} {A B : Prop} {e : Expr}

theorem Formed.ungrouped (h : e.Formed N A B) : e.ungrouped.Formed N A B := by
  fun_induction Expr.ungrouped e with
  | case1 e ih =>
    cases h with
    | grouping he => exact ih he
  | case2 => exact h

/-- The left operand of an operator is formed, whatever stands on its right. -/
theorem Formed.left_operand (h : e.Formed N A B) {kind : TokenKind} {l r : Expr}
    (ho : e.operands? kind = some (l, r)) : l.Formed N A B := by
  have hu := h.ungrouped
  unfold operands? at ho
  split at ho
  · next l' op r' heq =>
    rw [heq] at hu
    split at ho
    · cases ho
      cases hu <;> assumption
    · cases ho
  · cases ho

end Expr

namespace Tidy

theorem loopHead?_lifted {first second : Stmt} {head : LoopHead} (hs : second.Lifted)
    (h : loopHead? first second = some head) : head.collection.Lifted := by
  unfold loopHead? at h
  split at h
  · next m bound =>
    cases hs with
    | assign _ hbound =>
      obtain ⟨index, -, h⟩ := Option.bind_eq_some_iff.mp h
      split at h
      · cases h
      · obtain ⟨last, -, h⟩ := Option.bind_eq_some_iff.mp h
        obtain ⟨⟨length, one⟩, hlength, h⟩ := Option.bind_eq_some_iff.mp h
        dsimp only at h
        split at h
        · cases h
        · obtain ⟨⟨collection, property⟩, hcollection, h⟩ := Option.bind_eq_some_iff.mp h
          dsimp only at h
          split at h
          · cases h
            exact ((hbound.left_operand hlength).left_operand hcollection).ungrouped
          · cases h
  · cases h

theorem loopBody?_lifted {head : LoopHead} {s : Stmt} {body : List Stmt} (hs : s.Lifted)
    (h : loopBody? head s = some body) : ∀ x ∈ body, x.Lifted := by
  unfold loopBody? at h
  split at h
  · cases hs with
    | while_ _ hbody =>
    cases hbody with
    | block hall =>
      split at h
      · split at h
        · cases h
          exact fun x hx => hall x ((List.dropLast_sublist _).subset hx)
        · cases h
      · cases h
  · cases h

/-- A variable for every element of the collection that is read. -/
theorem puts_element (collection : Expr) (index : String) {element : Token} (h : element.IsName) :
    Puts (fun e => if Expr.isElement collection index e then some (.variable element) else none)
      IsVariable IsVariable True := by
  have hnone (t : Token) : (if Expr.isElement collection index (.variable t) then
      some (Expr.variable element) else none) = none := rfl
  refine ⟨fun e e' _ he => ?_, fun _ _ hn _ => hn, fun t _ _ => hnone t⟩
  split at he
  · cases he
    exact ⟨element, rfl, h.1, .inl h.2⟩
  · cases he

theorem foreach?_lifted {element : Token} (he : element.IsName) {first second third : Stmt}
    (h₂ : second.Lifted) (h₃ : third.Lifted) {c : Expr} {body : List Stmt}
    (h : foreach? element first second third = some (c, body)) :
    c.Lifted ∧ ∀ s ∈ body, s.Lifted := by
  simp only [foreach?, Option.bind_eq_bind, Option.bind_eq_some_iff] at h
  obtain ⟨head, hhead, whole, hwhole, h⟩ := h
  split at h
  · cases h
  · split at h
    · cases h
    · cases h
      refine ⟨loopHead?_lifted h₂ hhead, fun s hs => ?_⟩
      rw [Stmt.replaceAll_eq] at hs
      obtain ⟨x, hx, rfl⟩ := List.mem_map.mp hs
      exact ((loopBody?_lifted h₃ hwhole x hx).replace (puts_element _ _ he)).1

theorem isName_itemName (n : Nat) : (itemName n).IsName := ⟨rfl, isName_numbered (by decide) n⟩

mutual

theorem foldLoops_lifted (n : Nat) (acc ss : List Stmt) (hacc : ∀ s ∈ acc, s.Lifted)
    (hss : ∀ s ∈ ss, s.Lifted) : ∀ s ∈ (foldLoops n acc ss).1, s.Lifted := by
  match ss with
  | [] =>
    rw [foldLoops]
    exact fun s hs => hacc s (List.mem_reverse.mp hs)
  | [a] =>
    have ha := (foldInside_lifted n a (hss a List.mem_cons_self)).1
    rw [foldLoops]
    exact fun s hs => List.forall_mem_cons.mpr ⟨ha, hacc⟩ s (List.mem_reverse.mp hs)
  | [a, b] =>
    have ha := (foldInside_lifted n a (hss a List.mem_cons_self)).1
    rw [foldLoops]
    exact foldLoops_lifted _ _ [b] (List.forall_mem_cons.mpr ⟨ha, hacc⟩)
      fun s hs => hss s (List.mem_cons_of_mem a hs)
  | a :: b :: c :: rest =>
    rw [foldLoops]
    split
    · next collection body h =>
      have _lt := weightAll_foreach h
      have hb := hss b (List.mem_cons_of_mem a List.mem_cons_self)
      have hc := hss c (List.mem_cons_of_mem a (List.mem_cons_of_mem b List.mem_cons_self))
      obtain ⟨hcollection, hbody⟩ := foreach?_lifted (isName_itemName (n + 1)) hb hc h
      have hinner := foldLoops_lifted (n + 1) [] body (fun _ h => absurd h List.not_mem_nil) hbody
      have hx := isName_itemName (n + 1)
      refine foldLoops_lifted _ _ rest (List.forall_mem_cons.mpr
        ⟨.foreach hx.1 hx.2 hcollection (.block hinner), hacc⟩) fun s hs => hss s ?_
      exact List.mem_cons_of_mem a (List.mem_cons_of_mem b (List.mem_cons_of_mem c hs))
    · have ha := (foldInside_lifted n a (hss a List.mem_cons_self)).1
      exact foldLoops_lifted _ _ (b :: c :: rest) (List.forall_mem_cons.mpr ⟨ha, hacc⟩)
        fun s hs => hss s (List.mem_cons_of_mem a hs)
termination_by Stmt.weightAll ss
decreasing_by all_goals (simp only [Stmt.weightAll] at *; omega)

theorem foldInside_lifted (n : Nat) (s : Stmt) (hs : s.Lifted) :
    (foldInside n s).1.Lifted ∧ (foldInside n s).1.dangles = s.dangles := by
  cases hs with
  | @block ss span h =>
    rw [foldInside]
    exact ⟨.block (foldLoops_lifted n [] ss (fun _ h => absurd h List.not_mem_nil) h), rfl⟩
  | @if_ c body span hc hb =>
    rw [foldInside]
    exact ⟨.if_ hc (foldInside_lifted n body hb).1, rfl⟩
  | @ifElse c body arm span span' hc hb hd ha =>
    have harm (k : Nat) : foldInside k (.if_ none arm none span')
        = (.if_ none (foldInside k arm).1 none span', (foldInside k arm).2) := by rw [foldInside]
    have ihb := foldInside_lifted n body hb
    have iha := foldInside_lifted (foldInside n body).2 arm ha
    rw [foldInside]
    dsimp only
    rw [harm]
    exact ⟨.ifElse hc ihb.1 (ihb.2.trans hd) iha.1, iha.2⟩
  | @while_ c body hc hb =>
    rw [foldInside]
    have ih := foldInside_lifted n body hb
    exact ⟨.while_ hc ih.1, ih.2⟩
  | @doWhile c body hb hc =>
    rw [foldInside]
    exact ⟨.doWhile (foldInside_lifted n body hb).1 hc, rfl⟩
  | @foreach x c body hk hx hc hb =>
    rw [foldInside]
    have ih := foldInside_lifted n body hb
    exact ⟨.foreach hk hx hc ih.1, ih.2⟩
  | expr he => exact ⟨by simpa [foldInside] using .expr he, by simp [foldInside]⟩
  | return_ hv => exact ⟨by simpa [foldInside] using .return_ hv, by simp [foldInside]⟩
  | assign ht hv => exact ⟨by simpa [foldInside] using .assign ht hv, by simp [foldInside]⟩
  | var hk hn hi => exact ⟨by simpa [foldInside] using .var hk hn hi, by simp [foldInside]⟩
termination_by s.weight
decreasing_by all_goals (simp only [Stmt.weight] at *; omega)

end

theorem dropReturn_subset (body : List Stmt) : dropReturn body ⊆ body := by
  unfold dropReturn
  split
  · exact (List.dropLast_sublist body).subset
  · exact List.Subset.refl body

/-! Locals that were met. -/

def Locals.Knows (l : Locals) (text : String) : Prop := IsName text ∨ l.seen.contains text

def Locals.Grows (l l' : Locals) : Prop := ∀ name, l.seen.contains name → l'.seen.contains name

theorem Locals.Grows.refl (l : Locals) : l.Grows l := fun _ h => h

theorem Locals.Grows.trans {l l' l'' : Locals} (h : l.Grows l') (h' : l'.Grows l'') : l.Grows l'' :=
  fun name hn => h' name (h name hn)

theorem Locals.Grows.knows {l l' : Locals} (h : l.Grows l') {text : String} (ht : l.Knows text) :
    l'.Knows text :=
  ht.imp id (h text)

theorem Locals.grows_insert (l : Locals) (name : String) :
    l.Grows { l with seen := l.seen.insert name } := by
  intro text h
  simp [h]

theorem Locals.grows_meet (l : Locals) (e : Expr) : l.Grows (l.meet e) := by
  unfold Locals.meet
  split
  · split
    · exact .refl l
    · exact l.grows_insert _
  · exact .refl l

theorem Locals.grows_fold (l : Locals) (e : Expr) : l.Grows (e.fold Locals.meet l) :=
  e.fold_keeps (P := l.Grows) (fun m x h => h.trans (m.grows_meet x)) (.refl l)

theorem Locals.grows_foldAll (l : Locals) (es : List Expr) :
    l.Grows (Expr.foldAll Locals.meet l es) :=
  Expr.foldAll_keeps (P := l.Grows) (fun m x h => h.trans (m.grows_meet x)) es (.refl l)

theorem Locals.grows_stmt (l : Locals) (s : Stmt) : l.Grows (s.fold Locals.meet l) :=
  s.fold_keeps (P := l.Grows) (fun m x h => h.trans (m.grows_meet x)) (.refl l)

theorem Locals.grows_stmts (l : Locals) (ss : List Stmt) :
    l.Grows (Stmt.foldAll Locals.meet l ss) :=
  Stmt.foldAll_keeps (P := l.Grows) (fun m x h => h.trans (m.grows_meet x)) ss (.refl l)

/-- A variable is met where it stands. -/
theorem Locals.knows_meet (l : Locals) {t : Token} (hk : t.kind = .identifier)
    (hn : IsVariable t.text) : (l.meet (.variable t)).Knows t.text := by
  rcases hn with hn | hn
  · exact .inl hn
  · refine .inr ?_
    have hp : (Expr.variable t).placeholder? = some t.text := by
      simp [Expr.placeholder?, Expr.ungrouped, hk, hn]
    rw [Locals.meet, hp]
    dsimp only
    split
    · next h => exact h
    · simp

end Tidy

open Tidy

section

variable {A B : Prop}

/-- A fold over expressions meets what is met in each of them. -/
theorem formed_foldAll {es : List Expr}
    (h : ∀ e ∈ es, ∀ l : Locals, e.Formed (e.fold Locals.meet l).Knows A B) (l : Locals) :
    ∀ e ∈ es, e.Formed (Expr.foldAll Locals.meet l es).Knows A B := by
  induction es generalizing l with
  | nil => exact fun _ h => absurd h List.not_mem_nil
  | cons e es ih =>
    intro x hx
    rcases List.mem_cons.mp hx with rfl | hx
    · have hgrows := Locals.grows_foldAll (x.fold Locals.meet l) es
      exact (h x List.mem_cons_self l).mono fun _ => hgrows.knows
    · exact ih (fun e he => h e (List.mem_cons_of_mem _ he)) (e.fold Locals.meet l) x hx

/-- Every placeholder of an expression is met in a fold over it. -/
theorem Expr.Formed.met {e : Expr} (h : e.Formed IsVariable A B) (l : Locals) :
    e.Formed (e.fold Locals.meet l).Knows A B := by
  induction h generalizing l with
  | literal hk hs => exact .literal hk hs
  | signed hk ht hs => exact .signed hk ht hs
  | name hk hn => exact .name hk (l.knows_meet hk hn)
  | this hk hs => exact .this hk hs
  | grouping _ ih => exact .grouping (ih _)
  | unary hop hs hp hb _ ih => exact .unary hop hs hp hb (ih _)
  | @binary left right op o hk hs hl hr _ _ ihl ihr =>
    have hgrows := Locals.grows_fold (left.fold Locals.meet (l.meet (.binary left op right))) right
    exact .binary hk hs hl hr ((ihl _).mono fun _ => hgrows.knows) (ihr _)
  | @member left op t hk hs hp ht hts _ ih =>
    have hgrows := Locals.grows_fold
      (left.fold Locals.meet (l.meet (.binary left op (.variable t)))) (.variable t)
    exact .member hk hs hp ht hts ((ih _).mono fun _ => hgrows.knows)
  | @scope left op t hk hs hp ht hts _ ih =>
    have hgrows := Locals.grows_fold
      (left.fold Locals.meet (l.meet (.binary left op (.variable t)))) (.variable t)
    exact .scope hk hs hp ht hts ((ih _).mono fun _ => hgrows.knows)
  | @dynamic left right op hk hs hl hr _ _ ihl ihr =>
    have hgrows := Locals.grows_fold (left.fold Locals.meet (l.meet (.binary left op right))) right
    exact .dynamic hk hs hl hr ((ihl _).mono fun _ => hgrows.knows) (ihr _)
  | @index array i span hp _ _ iha ihi =>
    have hgrows := Locals.grows_fold (array.fold Locals.meet (l.meet (.index array i span))) i
    exact .index hp ((iha _).mono fun _ => hgrows.knows) (ihi _)
  | array _ ih => exact .array (formed_foldAll ih _)
  | @call f es span hp hb hlen _ _ ihf ih =>
    have hgrows := Locals.grows_foldAll (f.fold Locals.meet (l.meet (.call f es span))) es
    exact .call hp hb hlen ((ihf _).mono fun _ => hgrows.knows) (formed_foldAll ih _)
  | new hk hs => exact .new hk hs
  | construct hk hs hlen _ ih => exact .construct hk hs hlen (formed_foldAll ih _)

theorem formed_foldAllStmts {ss : List Stmt}
    (h : ∀ s ∈ ss, ∀ l : Locals, s.Formed (s.fold Locals.meet l).Knows A B) (l : Locals) :
    ∀ s ∈ ss, s.Formed (Stmt.foldAll Locals.meet l ss).Knows A B := by
  induction ss generalizing l with
  | nil => exact fun _ h => absurd h List.not_mem_nil
  | cons s ss ih =>
    intro x hx
    rcases List.mem_cons.mp hx with rfl | hx
    · have hgrows := Locals.grows_stmts (x.fold Locals.meet l) ss
      exact (h x List.mem_cons_self l).mono fun _ => hgrows.knows
    · exact ih (fun s hs => h s (List.mem_cons_of_mem _ hs)) (s.fold Locals.meet l) x hx

theorem Stmt.Formed.met {s : Stmt} (h : s.Formed IsVariable A B) (l : Locals) :
    s.Formed (s.fold Locals.meet l).Knows A B := by
  induction h generalizing l with
  | block _ ih => exact .block (formed_foldAllStmts ih l)
  | expr he => exact .expr (he.met l)
  | @return_ value _ hv =>
    refine .return_ fun e he => ?_
    cases he
    exact (hv e rfl).met l
  | @if_ c body _ hc _ ih =>
    have hgrows := Locals.grows_stmt (c.fold Locals.meet l) body
    exact .if_ ((hc.met l).mono fun _ => hgrows.knows) (ih _)
  | @ifElse c body arm _ _ hc _ hd _ ihb iha =>
    have hbody := Locals.grows_stmt (c.fold Locals.meet l) body
    have harm := Locals.grows_stmt (body.fold Locals.meet (c.fold Locals.meet l)) arm
    exact .ifElse ((hc.met l).mono fun _ => (hbody.trans harm).knows)
      ((ihb _).mono fun _ => harm.knows) hd (iha _)
  | @while_ c body hc _ ih =>
    have hgrows := Locals.grows_stmt (c.fold Locals.meet l) body
    exact .while_ ((hc.met l).mono fun _ => hgrows.knows) (ih _)
  | @doWhile c body _ hc ih =>
    have hgrows := Locals.grows_fold (body.fold Locals.meet l) c
    exact .doWhile ((ih l).mono fun _ => hgrows.knows) (hc.met _)
  | @foreach x c body hk hx hc _ ih =>
    have hgrows := Locals.grows_stmt (c.fold Locals.meet l) body
    exact .foreach hk hx ((hc.met l).mono fun _ => hgrows.knows) (ih _)
  | @assign t v ht hv =>
    have hgrows := Locals.grows_fold (t.fold Locals.meet l) v
    exact .assign ((ht.met l).mono fun _ => hgrows.knows) (hv.met _)
  | @var name init hk hn hi =>
    refine .var hk hn fun e he => ?_
    cases he
    exact (hi e rfl).met l

end

/-! Declarations of locals. -/

namespace Tidy

inductive Declared (N : String → Prop) : Stmt → Prop
  | formed {s : Stmt} : s.Formed N True False → Declared N s
  | placeholder {name : String} {init : Option Expr} : name.toList.head? = some '$' →
      (∀ e ∈ init, e.Formed N True False) → Declared N (.var (.identifier name) init)

theorem Declared.mono {N N' : String → Prop} (hN : ∀ text, N text → N' text) {s : Stmt}
    (h : Declared N s) : Declared N' s := by
  cases h with
  | formed h => exact .formed (h.mono hN)
  | placeholder hn hi => exact .placeholder hn fun e he => (hi e he).mono hN

/-- Every local that was met is declared by one of the statements, or will be at the top. -/
structure Accounts (l : Locals) (ss : List Stmt) : Prop where
  placeholders : ∀ name, l.seen.contains name → name.toList.head? = some '$'
  hoisted : ∀ name ∈ l.hoisted, name.toList.head? = some '$'
  declared : ∀ name, l.seen.contains name →
    name ∈ l.hoisted ∨ ∃ init, .var (.identifier name) init ∈ ss

theorem head_of_placeholder? {e : Expr} {name : String} (h : e.placeholder? = some name) :
    name.toList.head? = some '$' := by
  unfold Expr.placeholder? at h
  split at h
  · split at h
    · next hc =>
      cases h
      exact hc.2
    · cases h
  · cases h

theorem Accounts.meet {l : Locals} {ss : List Stmt} (h : Accounts l ss) (e : Expr) :
    Accounts (l.meet e) ss := by
  unfold Locals.meet
  split
  · next name hname =>
    split
    · exact h
    · have hhead := head_of_placeholder? hname
      refine ⟨fun text ht => ?_, fun text ht => ?_, fun text ht => ?_⟩
      · rcases (by simpa using ht : name = text ∨ text ∈ l.seen) with rfl | ht
        · exact hhead
        · exact h.placeholders text (by simpa using ht)
      · rcases List.mem_cons.mp ht with rfl | ht
        · exact hhead
        · exact h.hoisted text ht
      · rcases (by simpa using ht : name = text ∨ text ∈ l.seen) with rfl | ht
        · exact .inl List.mem_cons_self
        · exact (h.declared text (by simpa using ht)).imp (List.mem_cons_of_mem _) id
  · exact h

theorem Accounts.declare {l : Locals} {ss : List Stmt} (h : Accounts l ss) {name : String}
    (hname : name.toList.head? = some '$') (init : Option Expr) :
    Accounts { l with seen := l.seen.insert name } (.var (.identifier name) init :: ss) := by
  refine ⟨fun text ht => ?_, h.hoisted, fun text ht => ?_⟩
  · rcases (by simpa using ht : name = text ∨ text ∈ l.seen) with rfl | ht
    · exact hname
    · exact h.placeholders text (by simpa using ht)
  · rcases (by simpa using ht : name = text ∨ text ∈ l.seen) with rfl | ht
    · exact .inr ⟨init, List.mem_cons_self⟩
    · refine (h.declared text (by simpa using ht)).imp id ?_
      rintro ⟨init, hi⟩
      exact ⟨init, List.mem_cons_of_mem _ hi⟩

structure Tracks (l : Locals) (ss : List Stmt) : Prop extends Accounts l ss where
  statements : ∀ s ∈ ss, Declared l.Knows s

theorem Tracks.cons {l l' : Locals} {s : Stmt} {ss : List Stmt} (h : Tracks l ss)
    (hgrows : l.Grows l') (ha : Accounts l' (s :: ss)) (hs : Declared l'.Knows s) :
    Tracks l' (s :: ss) := by
  refine ⟨ha, List.forall_mem_cons.mpr ⟨hs, fun x hx => ?_⟩⟩
  exact (h.statements x hx).mono fun _ => hgrows.knows

/-- What a statement declares is a placeholder with a formed value. -/
theorem declared?_lifted {l : Locals} {s : Stmt} (hs : s.Lifted) {name : String}
    {init : Option Expr} (h : declared? l s = some (name, init)) :
    name.toList.head? = some '$' ∧ ∀ e ∈ init, e.Lifted := by
  unfold declared? at h
  split at h
  · next t v =>
    cases hs with
    | assign _ hv =>
      split at h
      · next hname =>
        split at h
        · cases h
        · cases h
          refine ⟨head_of_placeholder? hname, fun e he => ?_⟩
          split at he
          · cases he
          · cases he
            exact hv
      · cases h
  · cases h

theorem declareOnto_tracks {l : Locals} {acc ss : List Stmt} (h : Tracks l acc)
    (hss : ∀ s ∈ ss, s.Lifted) :
    Tracks (declareOnto l acc ss).2 (declareOnto l acc ss).1 := by
  induction ss generalizing l acc with
  | nil =>
    refine ⟨⟨h.placeholders, h.hoisted, fun name hn => ?_⟩, fun s hs => ?_⟩
    · simpa [declareOnto] using h.declared name hn
    · exact h.statements s (List.mem_reverse.mp hs)
  | cons s ss ih =>
    have hs := hss s List.mem_cons_self
    have hrest : ∀ x ∈ ss, x.Lifted := fun x hx => hss x (List.mem_cons_of_mem s hx)
    rw [declareOnto]
    split
    · next name init hd =>
      obtain ⟨hname, hinit⟩ := declared?_lifted hs hd
      refine ih (h.cons ?_ ?_ (.placeholder hname fun e he => ?_)) hrest
      · exact (l.grows_insert name).trans (Locals.grows_stmt _ _)
      · exact Stmt.fold_keeps (P := fun l => Accounts l _) (fun _ e h => h.meet e) _
          (h.declare hname init)
      · cases he
        exact (hinit e rfl).met _
    · have ha : Accounts l (s :: acc) := by
        refine ⟨h.placeholders, h.hoisted, fun name hn => ?_⟩
        refine (h.declared name hn).imp id ?_
        rintro ⟨init, hi⟩
        exact ⟨init, List.mem_cons_of_mem s hi⟩
      refine ih (h.cons (l.grows_stmt s) ?_ (.formed (hs.met l))) hrest
      exact s.fold_keeps (P := fun l => Accounts l _) (fun _ e h => h.meet e) ha

/-- Every variable of a body is a name or declared in the body itself. -/
theorem declareLocals_declared {body : List Stmt} (h : ∀ s ∈ body, s.Lifted) :
    ∃ l : Locals, (∀ s ∈ declareLocals body, Declared l.Knows s) ∧
      ∀ name, l.seen.contains name → name.toList.head? = some '$' ∧
        ∃ init, .var (.identifier name) init ∈ declareLocals body := by
  have hstart : Tracks {} [] := by
    refine ⟨⟨fun name hn => ?_, fun _ hn => ?_, fun name hn => ?_⟩, fun _ hs => ?_⟩
    · simp at hn
    · cases hn
    · simp at hn
    · cases hs
  have htracks := declareOnto_tracks hstart h
  refine ⟨(declareOnto {} [] body).2, fun s hs => ?_,
    fun name hn => ⟨htracks.placeholders name hn, ?_⟩⟩
  · rcases List.mem_append.mp hs with hs | hs
    · obtain ⟨name, hname, rfl⟩ := List.mem_map.mp hs
      exact .placeholder (htracks.hoisted name (List.mem_reverse.mp hname)) nofun
    · exact htracks.statements s hs
  · rcases htracks.declared name hn with hmem | ⟨init, hmem⟩
    · exact ⟨none, List.mem_append_left _
        (List.mem_map.mpr ⟨name, List.mem_reverse.mpr hmem, rfl⟩)⟩
    · exact ⟨init, List.mem_append_right _ hmem⟩

/-! New names of locals. -/

def Renaming.Sound (names : Renaming) : Prop :=
  ∀ (old new : String), names[old]? = some new → old.toList.head? = some '$' ∧ IsName new

theorem Renaming.Sound.insert {names : Renaming} (h : names.Sound) {old new : String}
    (ho : old.toList.head? = some '$') (hn : IsName new) :
    Renaming.Sound (Std.TreeMap.insert names old new) := by
  intro o n hon
  rw [Std.TreeMap.getElem?_insert] at hon
  split at hon
  · next hc =>
    cases hon
    have := Std.LawfulEqCmp.eq_of_compare hc
    subst this
    exact ⟨ho, hn⟩
  · exact h o n hon

/-- What is formed keeps its place and its names. -/
theorem renameOnto_formed {N : String → Prop} {s : Stmt} (h : s.Formed N True False)
    (names : Renaming) (acc ss : List Stmt) :
    renameOnto names acc (s :: ss) = renameOnto names (s :: acc) ss := by
  cases h with
  | var hk hn => rw [renameOnto, if_neg (hn.head_ne_dollar rfl)]
  | _ => rw [renameOnto]; all_goals exact fun _ _ h => nomatch h

theorem renameOnto_placeholder {old : String} (h : old.toList.head? = some '$') (names : Renaming)
    (acc ss : List Stmt) (init : Option Expr) :
    renameOnto names acc (.var (.identifier old) init :: ss)
      = renameOnto (Std.TreeMap.insert names old ("var" ++ toString (names.size + 1)))
        (.var (.identifier ("var" ++ toString (names.size + 1))) init :: acc) ss := by
  rw [renameOnto]
  exact if_pos h

/-- After renaming, every declaration is formed and every placeholder that was declared has a new
name. -/
theorem renameOnto_sound {N : String → Prop} {names : Renaming} {acc ss : List Stmt}
    (hnames : names.Sound) (hacc : ∀ s ∈ acc, s.Formed N True False)
    (hss : ∀ s ∈ ss, Declared N s) :
    (renameOnto names acc ss).2.Sound ∧
      (∀ s ∈ (renameOnto names acc ss).1, s.Formed N True False) ∧
      (∀ name : String, names[name]?.isSome → (renameOnto names acc ss).2[name]?.isSome) ∧
      ∀ (name : String) init, .var (.identifier name) init ∈ ss → name.toList.head? = some '$' →
        (renameOnto names acc ss).2[name]?.isSome := by
  induction ss generalizing names acc with
  | nil =>
    refine ⟨hnames, fun s hs => hacc s (List.mem_reverse.mp hs), fun _ h => h, fun _ _ h => ?_⟩
    cases h
  | cons s ss ih =>
    have hrest : ∀ x ∈ ss, Declared N x := fun x hx => hss x (List.mem_cons_of_mem s hx)
    cases hss s List.mem_cons_self with
    | formed hs =>
      rw [renameOnto_formed hs]
      obtain ⟨hsound, hformed, hkept, hnew⟩ := ih hnames (List.forall_mem_cons.mpr ⟨hs, hacc⟩) hrest
      refine ⟨hsound, hformed, hkept, fun name init hmem hhead => ?_⟩
      rcases List.mem_cons.mp hmem with rfl | hmem
      · cases hs with
        | var _ hn => exact absurd hhead (hn.head_ne_dollar rfl)
      · exact hnew name init hmem hhead
    | @placeholder old init ho hi =>
      have hvar : IsName ("var" ++ toString (names.size + 1)) := isName_numbered (by decide) _
      have hs : Stmt.Formed N True False
          (.var (.identifier ("var" ++ toString (names.size + 1))) init) := .var rfl hvar hi
      rw [renameOnto_placeholder ho]
      obtain ⟨hsound, hformed, hkept, hnew⟩ :=
        ih (hnames.insert ho hvar) (List.forall_mem_cons.mpr ⟨hs, hacc⟩) hrest
      refine ⟨hsound, hformed, fun name hname => hkept name ?_, fun name init hmem hhead => ?_⟩
      · rw [Std.TreeMap.getElem?_insert]
        split
        · rfl
        · exact hname
      · rcases List.mem_cons.mp hmem with heq | hmem
        · cases heq
          exact hkept old (by simp)
        · exact hnew name init hmem hhead

theorem puts_renamed {names : Renaming} (hnames : names.Sound) {l : Locals}
    (h : ∀ name, l.seen.contains name → names[name]?.isSome) :
    Puts (renamed names) l.Knows IsName True := by
  refine ⟨fun e e' he hr => ?_, fun t _ hn hr => ?_, fun t ht hk => ?_⟩
  · unfold renamed at hr
    split at hr
    · next t =>
      obtain ⟨new, hnew, rfl⟩ := Option.map_eq_some_iff.mp hr
      obtain ⟨hhead, hn⟩ := hnames _ _ hnew
      cases he with
      | name hk _ => exact ⟨_, rfl, hk, hn⟩
      | this hk hs => exact absurd hhead (Spells.head_ne_dollar hs (by rw [hk]; rfl))
    · cases hr
  · rcases hn with hn | hn
    · exact hn
    · have hsome := h _ hn
      rw [Option.map_eq_none_iff.mp hr] at hsome
      cases hsome
  · cases hname : names[t.text]? with
    | none => simp [renamed, hname]
    | some new => exact absurd (hnames _ _ hname).1 (Spells.head_ne_dollar ht hk)

theorem renameLocals_formed {body : List Stmt} {l : Locals} (h : ∀ s ∈ body, Declared l.Knows s)
    (hdeclared : ∀ name, l.seen.contains name → name.toList.head? = some '$' ∧
      ∃ init, .var (.identifier name) init ∈ body) :
    ∀ s ∈ renameLocals body, s.Formed IsName True False := by
  have hempty : Renaming.Sound {} := by
    intro old new hnew
    simp at hnew
  obtain ⟨hsound, hformed, -, hnew⟩ :=
    renameOnto_sound hempty (fun _ h => absurd h List.not_mem_nil) h
  intro s hs
  rw [renameLocals] at hs
  dsimp only at hs
  rw [Stmt.replaceAll_eq] at hs
  obtain ⟨x, hx, rfl⟩ := List.mem_map.mp hs
  refine ((hformed x hx).replace (puts_renamed hsound fun name hn => ?_)).1
  obtain ⟨hhead, init, hmem⟩ := hdeclared name hn
  exact hnew name init hmem hhead

end Tidy

/-- A tidy body is formed, and all its variables have names. -/
theorem tidy_formed {body : List Stmt} (h : ∀ s ∈ body, s.Lifted) :
    ∀ s ∈ tidy body, s.Formed IsName True False := by
  have hloops := foldLoops_lifted 0 [] body (fun _ h => absurd h List.not_mem_nil) h
  obtain ⟨l, hall, hdeclared⟩ :=
    declareLocals_declared fun s hs => hloops s (dropReturn_subset _ hs)
  exact renameLocals_formed hall hdeclared

end Lss
