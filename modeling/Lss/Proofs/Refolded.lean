import Lss.Proofs.Flows
import Lss.Proofs.Guarded

/-!
# Loops that were spelled out

Statements in which loops over collections are spelled out, each with a counter and a bound of its
own that nothing else mentions. Folding finds every such loop, whatever stands around it, and no
mention of a counter or of a bound is left.
-/
namespace Lss

namespace Loop

def start (l : Loop) : Stmt := .assign (.name l.index) (.literal (.integer 0))

def bound (l : Loop) : Stmt :=
  .assign (.name l.last)
    (.operation (.operation l.items (.access .member) (.variable (.of (.property .length))))
      (.binary .sub) (.literal (.integer 1)))

def test (l : Loop) : Expr :=
  .operation (.name l.last) (.binary .greaterEqual) (.name l.index)

def advance (l : Loop) : Stmt :=
  .assign (.name l.index)
    (.operation (.name l.index) (.binary .add) (.literal (.integer 1)))

def rounds (l : Loop) (body : List Stmt) : Stmt := .while_ l.test (.ofList (body ++ [l.advance]))

structure Fresh (hidden : String → Prop) (taken : List String) (l : Loop) : Prop where
  index : hidden l.index
  last : hidden l.last
  index_free : l.index ∉ taken
  last_free : l.last ∉ taken

end Loop

namespace Stmt

mutual

/-- Statements with a control flow, some loops of which are spelled out. Loops around them are under
way, and the locals of these are taken. -/
inductive Unfolds (hidden : String → Prop) :
    List Loop → List String → List Flow → List Stmt → Prop
  | nil {loops taken} : Unfolds hidden loops taken [] []
  | cons {loops taken a b s ss} : UnfoldsIn hidden loops taken a s →
      Unfolds hidden loops taken b ss →
      Unfolds hidden loops taken (a ++ b) (s :: ss)
  | loop {loops taken l a b body ss} : l.Fresh hidden taken →
      Expr.Guarded hidden loops l.items →
      Unfolds hidden (l :: loops) (l.index :: l.last :: taken) a body →
      Unfolds hidden loops taken b ss →
      Unfolds hidden loops taken (.foreach a :: b) (l.start :: l.bound :: l.rounds body :: ss)

inductive UnfoldsIn (hidden : String → Prop) :
    List Loop → List String → List Flow → Stmt → Prop
  | block {loops taken a body span} : Unfolds hidden loops taken a body →
      UnfoldsIn hidden loops taken a (.block ⟨body, span⟩)
  | expr {loops taken e} : Expr.Guarded hidden loops e →
      UnfoldsIn hidden loops taken [.expr] (.expr e)
  | assign {loops taken t v} : Expr.Guarded hidden loops t → Expr.Guarded hidden loops v →
      (∀ a i span, t.ungrouped = .index a i span → Expr.Guarded hidden loops i) →
      UnfoldsIn hidden loops taken [.assign] (.assign t v)
  | return_ {loops taken v span} : (∀ e ∈ v, Expr.Guarded hidden loops e) →
      UnfoldsIn hidden loops taken [.return_] (.return_ v span)
  | arm {loops taken a s span} : UnfoldsIn hidden loops taken a s →
      UnfoldsIn hidden loops taken a (.if_ none s none span)
  | if_ {loops taken c a s span} : Expr.Guarded hidden loops c → UnfoldsIn hidden loops taken a s →
      UnfoldsIn hidden loops taken [.if_ a []] (.if_ (some c) s none span)
  | ifElse {loops taken c a b s s' span} : Expr.Guarded hidden loops c →
      UnfoldsIn hidden loops taken a s → UnfoldsIn hidden loops taken b s' →
      UnfoldsIn hidden loops taken [.if_ a b] (.if_ (some c) s (some s') span)
  | while_ {loops taken c a s} : Expr.Guarded hidden loops c → UnfoldsIn hidden loops taken a s →
      UnfoldsIn hidden loops taken [.while_ a] (.while_ c s)
  | doWhile {loops taken c a s} : UnfoldsIn hidden loops taken a s → Expr.Guarded hidden loops c →
      UnfoldsIn hidden loops taken [.doWhile a] (.doWhile s c)

end

end Stmt

section

variable {hidden : String → Prop} {loops loops' : List Loop} {taken : List String} {x : String}

namespace Stmt

theorem Unfolds.one {a : List Flow} {s : Stmt} (h : UnfoldsIn hidden loops taken a s) :
    Unfolds hidden loops taken a [s] := by
  have := Unfolds.cons h .nil
  rwa [List.append_nil] at this

theorem Unfolds.append {a b : List Flow} {ss ts : List Stmt} :
    Unfolds hidden loops taken a ss → Unfolds hidden loops taken b ts →
    Unfolds hidden loops taken (a ++ b) (ss ++ ts)
  | .nil, k => k
  | .cons hs h, k => by
    rw [List.append_assoc]
    exact .cons hs (h.append k)
  | .loop hl hitems hbody h, k => .loop hl hitems hbody (h.append k)

theorem Unfolds.eq_nil {a : List Flow} (h : Unfolds hidden loops taken a []) : a = [] := by
  cases h
  rfl

theorem Unfolds.ofList {a : List Flow} {ss : List Stmt} (h : Unfolds hidden loops taken a ss) :
    UnfoldsIn hidden loops taken a (.ofList ss) :=
  .block h

theorem UnfoldsIn.ofReturn {e : Expr} (h : Expr.Guarded hidden loops e) :
    UnfoldsIn hidden loops taken [.return_] (.ofReturn e) := by
  unfold Stmt.ofReturn
  split
  · refine .return_ fun e he => ?_
    split at he
    · cases he
    · exact Option.some.inj he ▸ h
  · exact .return_ fun e he => Option.some.inj he ▸ h

theorem Unfolds.elseArm {a : List Flow} {ss : List Stmt} (h : Unfolds hidden loops taken a ss) :
    UnfoldsIn hidden loops taken a (Body.elseArm ss) := by
  unfold Body.elseArm
  split
  · cases h with
    | cons hs hrest =>
      rw [hrest.eq_nil, List.append_nil]
      exact hs
  · exact h.ofList

/-- What ends in an assignment has it in its control flow. -/
theorem Unfolds.unsnoc {t v : Expr} {a : List Flow} {ss : List Stmt} :
    Unfolds hidden loops taken a ss → ss.getLast? = some (.assign t v) →
    ∃ a', a = a' ++ [Flow.assign] ∧ Unfolds hidden loops taken a' ss.dropLast
  | @Unfolds.cons _ _ _ _ _ _ [] hs h, hlast => by
    cases hlast
    cases hs
    exact ⟨[], by rw [h.eq_nil]; rfl, .nil⟩
  | @Unfolds.cons _ _ _ _ _ _ (_ :: _) hs h, hlast => by
    rw [List.getLast?_cons_cons] at hlast
    obtain ⟨a', rfl, ha⟩ := h.unsnoc hlast
    exact ⟨_, (List.append_assoc ..).symm, .cons hs ha⟩
  | @Unfolds.loop _ _ _ _ _ _ _ [] _ _ _ _, hlast => by cases hlast
  | @Unfolds.loop _ _ _ _ _ _ _ (_ :: _) hl hitems hbody h, hlast => by
    rw [List.getLast?_cons_cons, List.getLast?_cons_cons, List.getLast?_cons_cons] at hlast
    obtain ⟨a', rfl, ha⟩ := h.unsnoc hlast
    exact ⟨_ :: a', rfl, .loop hl hitems hbody ha⟩

/-! Nothing but a loop itself mentions its locals. -/

mutual

/-- A taken local that no loop under way counts with is not mentioned. -/
theorem Unfolds.tally_eq_zero {loops : List Loop} {taken : List String} {a : List Flow}
    {ss : List Stmt} (hx : hidden x) : Unfolds hidden loops taken a ss → x ∈ taken →
    (∀ l ∈ loops, l.index ≠ x) → tallyAll x ss = 0
  | .nil, _, _ => rfl
  | .cons hs h, htaken, hloops => by
    rw [tallyAll_cons, hs.tally_eq_zero hx htaken hloops, h.tally_eq_zero hx htaken hloops]
  | .loop (l := l) hl hitems hbody h, htaken, hloops => by
    have hname {name : String} (hne : name ≠ x) : (Expr.name name).tally x = 0 := by
      rw [Expr.tally_name, Bool.toNat_eq_zero]
      refine Bool.eq_false_iff.mpr fun hp => hne ?_
      exact Expr.eq_of_placeholder?_variable (Expr.isPlaceholder_iff.mp hp)
    have hindex : l.index ≠ x := fun heq => hl.index_free (heq ▸ htaken)
    have hlast : l.last ≠ x := fun heq => hl.last_free (heq ▸ htaken)
    have hinside := hbody.tally_eq_zero hx (by simp [htaken])
      (List.forall_mem_cons.mpr ⟨hindex, hloops⟩)
    have hitems := hitems.tally_eq_zero hx hloops
    have hnumber (n : Int) : (Expr.literal (.integer n)).tally x = 0 := rfl
    have hlength : (Expr.variable (.of (.property .length))).tally x = 0 := rfl
    simp only [tallyAll_cons, h.tally_eq_zero hx htaken hloops, Loop.start, Loop.bound, Loop.rounds,
      Loop.test, Loop.advance, Expr.operation, tally_assign, tally_while, Stmt.ofList, tally_block,
      Expr.tally_binary, hname hindex, hname hlast, hitems, hnumber, hlength, tallyAll_append,
      hinside, tallyAll_nil]

theorem UnfoldsIn.tally_eq_zero {loops : List Loop} {taken : List String} {a : List Flow}
    {s : Stmt} (hx : hidden x) : UnfoldsIn hidden loops taken a s → x ∈ taken →
    (∀ l ∈ loops, l.index ≠ x) → s.tally x = 0
  | .block h, htaken, hloops => h.tally_eq_zero hx htaken hloops
  | .expr he, _, hloops => he.tally_eq_zero hx hloops
  | .assign ht hv _, _, hloops => by
    rw [tally_assign, ht.tally_eq_zero hx hloops, hv.tally_eq_zero hx hloops]
  | .return_ (v := none) _, _, _ => rfl
  | .return_ (v := some e) hv, _, hloops => (hv e rfl).tally_eq_zero hx hloops
  | .arm h, htaken, hloops => by
    rw [tally_if, h.tally_eq_zero hx htaken hloops]
    rfl
  | .if_ hc h, htaken, hloops => by
    rw [tally_if, h.tally_eq_zero hx htaken hloops, Option.map_some, hc.tally_eq_zero hx hloops]
    rfl
  | .ifElse hc h k, htaken, hloops => by
    rw [tally_ifElse, h.tally_eq_zero hx htaken hloops, k.tally_eq_zero hx htaken hloops,
      Option.map_some, hc.tally_eq_zero hx hloops]
    rfl
  | .while_ hc h, htaken, hloops => by
    rw [tally_while, hc.tally_eq_zero hx hloops, h.tally_eq_zero hx htaken hloops]
  | .doWhile h hc, htaken, hloops => by
    rw [tally_doWhile, h.tally_eq_zero hx htaken hloops, hc.tally_eq_zero hx hloops]

end

/-! Names put for elements keep loops spelled out. -/

variable {f : Expr → Option Expr}

theorem replace_start (hf : Expr.NamesElements f) (l : Loop) :
    l.start.replace f = (l.replace f).start := by
  rw [Loop.start, replace, hf.replace_literal, Expr.name, hf.replace_variable]
  rfl

theorem replace_bound (hf : Expr.NamesElements f) (l : Loop) :
    l.bound.replace f = (l.replace f).bound := by
  rw [Loop.bound, replace, hf.replace_operation, hf.replace_operation, hf.replace_literal,
    hf.replace_variable, Expr.name, hf.replace_variable]
  rfl

theorem replace_rounds (hf : Expr.NamesElements f) (l : Loop) (body : List Stmt) :
    (l.rounds body).replace f = (l.replace f).rounds (body.map (Stmt.replace f)) := by
  have htest : l.test.replace f = (l.replace f).test := by
    rw [Loop.test, hf.replace_operation, Expr.name, Expr.name, hf.replace_variable,
      hf.replace_variable]
    rfl
  have hadvance : l.advance.replace f = (l.replace f).advance := by
    rw [Loop.advance, replace, hf.replace_operation, hf.replace_literal, Expr.name,
      hf.replace_variable]
    rfl
  rw [Loop.rounds, replace, htest, ofList, replace, replaceAll_eq, List.map_append, List.map_cons,
    hadvance]
  rfl

mutual

theorem Unfolds.replace {loops loops' : List Loop} {taken : List String} {a : List Flow}
    {ss : List Stmt} (hf : Expr.NamesElements f) : Unfolds hidden loops taken a ss →
    (∀ l ∈ loops, (∀ span, (f (l.read span)).isSome) ∨ l.replace f ∈ loops') →
    Unfolds hidden loops' taken a (ss.map (Stmt.replace f))
  | .nil, _ => .nil
  | .cons hs h, hread => .cons (hs.replace hf hread) (h.replace hf hread)
  | .loop (l := l) hl hitems hbody h, hread => by
    have hinside : Unfolds hidden (l.replace f :: loops') _ _ _ := hbody.replace hf
      (List.forall_mem_cons.mpr ⟨.inr List.mem_cons_self, fun k hk =>
        (hread k hk).imp id (List.mem_cons_of_mem _)⟩)
    rw [List.map_cons, List.map_cons, List.map_cons, replace_start hf, replace_bound hf,
      replace_rounds hf]
    exact .loop ⟨hl.index, hl.last, hl.index_free, hl.last_free⟩ (hitems.replace hf hread) hinside
      (h.replace hf hread)

theorem UnfoldsIn.replace {loops loops' : List Loop} {taken : List String} {a : List Flow}
    {s : Stmt} (hf : Expr.NamesElements f) : UnfoldsIn hidden loops taken a s →
    (∀ l ∈ loops, (∀ span, (f (l.read span)).isSome) ∨ l.replace f ∈ loops') →
    UnfoldsIn hidden loops' taken a (s.replace f)
  | .block h, hread => by
    rw [Stmt.replace, replaceAll_eq]
    exact .block (h.replace hf hread)
  | .expr he, hread => .expr (he.replace hf hread)
  | .assign ht hv hi, hread => by
    refine .assign (ht.replace hf hread) (hv.replace hf hread) fun a i span heq => ?_
    obtain ⟨a', i', heq', rfl⟩ := hf.ungrouped_replace _ heq
    exact (hi a' i' span heq').replace hf hread
  | .return_ hv, hread => by
    refine .return_ fun e he => ?_
    obtain ⟨e', he', rfl⟩ := Option.map_eq_some_iff.mp he
    exact (hv e' he').replace hf hread
  | .arm h, hread => .arm (h.replace hf hread)
  | .if_ hc h, hread => .if_ (hc.replace hf hread) (h.replace hf hread)
  | .ifElse hc h k, hread =>
    .ifElse (hc.replace hf hread) (h.replace hf hread) (k.replace hf hread)
  | .while_ hc h, hread => .while_ (hc.replace hf hread) (h.replace hf hread)
  | .doWhile h hc, hread => .doWhile (h.replace hf hread) (hc.replace hf hread)

end

/-! Elements are not assigned to where the index of a target is no hidden local. -/

theorem isElement_eq_true {c e : Expr} (h : Expr.isElement c x e) :
    ∃ a i span, e.ungrouped = .index a i span ∧ i.placeholder? = some x := by
  unfold Expr.isElement at h
  split at h
  · next a i span heq =>
    exact ⟨a, i, span, heq, Expr.isPlaceholder_iff.mp (Bool.and_eq_true_iff.mp h).2⟩
  · cases h

theorem anyAssignsTo_append (p : Expr → Bool) (ss ts : List Stmt) :
    anyAssignsTo p (ss ++ ts) = (anyAssignsTo p ss || anyAssignsTo p ts) := by
  induction ss with
  | nil => rfl
  | cons s ss ih => rw [List.cons_append, anyAssignsTo, anyAssignsTo, ih, Bool.or_assoc]

mutual

theorem Unfolds.anyAssignsTo {loops : List Loop} {taken : List String} {a : List Flow}
    {ss : List Stmt} (hx : hidden x) (c : Expr) : Unfolds hidden loops taken a ss →
    Stmt.anyAssignsTo (Expr.isElement c x) ss = false
  | .nil => rfl
  | .cons hs h => by
    rw [Stmt.anyAssignsTo, hs.assignsTo hx c, h.anyAssignsTo hx c]
    rfl
  | .loop (l := l) _ _ hbody h => by
    have hname (name : String) (v : Expr) :
        (Stmt.assign (.name name) v).assignsTo (Expr.isElement c x) = false := rfl
    rw [Stmt.anyAssignsTo, Stmt.anyAssignsTo, Stmt.anyAssignsTo, h.anyAssignsTo hx c, Loop.start,
      Loop.bound, hname, hname, Loop.rounds, Stmt.assignsTo, ofList, Stmt.assignsTo,
      anyAssignsTo_append, hbody.anyAssignsTo hx c, Loop.advance, Stmt.anyAssignsTo, hname]
    rfl

theorem UnfoldsIn.assignsTo {loops : List Loop} {taken : List String} {a : List Flow}
    {s : Stmt} (hx : hidden x) (c : Expr) : UnfoldsIn hidden loops taken a s →
    s.assignsTo (Expr.isElement c x) = false
  | .block h => h.anyAssignsTo hx c
  | .assign _ _ hi => by
    refine Bool.eq_false_iff.mpr fun helement => ?_
    obtain ⟨a, i, span, heq, hindex⟩ := isElement_eq_true helement
    exact (hi a i span heq).not_hidden hindex hx
  | .expr _ | .return_ _ => rfl
  | .arm h | .if_ _ h | .while_ _ h | .doWhile h _ => h.assignsTo hx c
  | .ifElse _ h k => by
    rw [Stmt.assignsTo, h.assignsTo hx c, k.assignsTo hx c]
    rfl

end

end Stmt

theorem Stmt.weightAll_pos (ss : List Stmt) : 0 < weightAll ss := by
  cases ss <;> simp only [weightAll] <;> omega

theorem Stmt.weight_pos (s : Stmt) : 0 < s.weight := by
  unfold weight
  split <;> omega

/-! Loops that are spelled out are found. -/

namespace Tidy

open Stmt

theorem operands?_operation (l r : Expr) (op : TokenKind) :
    (Expr.operation l op r).operands? op = some (l, r) :=
  if_pos rfl

def element (collection : Expr) (index : String) (n : Nat) (e : Expr) : Option Expr :=
  if Expr.isElement collection index e then some (.variable (itemName n)) else none

theorem element_names (collection : Expr) (index : String) (n : Nat) :
    Expr.NamesElements (element collection index n) := by
  intro e e' h
  unfold element at h
  split at h
  · next helement =>
    cases h
    obtain ⟨a, i, span, heq, -⟩ := isElement_eq_true helement
    exact ⟨⟨a, i, span, heq⟩, _, rfl, placeholder?_itemName n⟩
  · cases h

theorem placeholder?_name {name : String} (h : name.toList.head? = some '$') :
    (Expr.name name).placeholder? = some name :=
  if_pos ⟨rfl, h⟩

theorem element_read {l : Loop} (h : l.index.toList.head? = some '$') (n : Nat) (span : Span) :
    (element l.items.ungrouped l.index n (l.read span)).isSome := by
  have hread : Expr.isElement l.items.ungrouped l.index (l.read span) := by
    have hindex := Expr.isPlaceholder_iff.mpr (placeholder?_name h)
    exact Bool.and_eq_true_iff.mpr ⟨beq_self_eq_true _, hindex⟩
  rw [element, if_pos hread]
  rfl

/-- Once its elements have a name, the body of a loop mentions neither local. -/
theorem foreach?_rounds {l : Loop} {a : List Flow} {body : List Stmt} {n : Nat}
    (hhidden : ∀ x, hidden x → x.toList.head? = some '$') (hl : l.Fresh hidden taken)
    (hbody : Unfolds hidden [l] (l.index :: l.last :: taken) a body) :
    foreach? (itemName n) l.start l.bound (l.rounds body)
        = some (l.items.ungrouped, Stmt.replaceAll (element l.items.ungrouped l.index n) [] body) ∧
      Unfolds hidden [] (l.index :: l.last :: taken) a
        (Stmt.replaceAll (element l.items.ungrouped l.index n) [] body) := by
  have hindex := placeholder?_name (hhidden _ hl.index)
  have hlast := placeholder?_name (hhidden _ hl.last)
  have hhead : loopHead? l.start l.bound = some ⟨l.index, l.last, l.items.ungrouped⟩ := by
    simp only [loopHead?, Loop.start, Loop.bound, hindex, hlast]
    rfl
  have hcounter := Expr.isPlaceholder_iff.mpr hindex
  have hbound := Expr.isPlaceholder_iff.mpr hlast
  have hrounds : loopBody? ⟨l.index, l.last, l.items.ungrouped⟩ (l.rounds body) = some body := by
    have hadvance : isAdvance l.index l.advance := by
      simp only [isAdvance, Loop.advance, hcounter, operands?_operation]
      rfl
    simp only [loopBody?, Loop.rounds, ofList, Loop.test, operands?_operation,
      List.getLast?_concat, List.dropLast_concat, hcounter, hbound, hadvance]
    rfl
  have hnamed : Unfolds hidden [] _ _ _ :=
    hbody.replace (element_names l.items.ungrouped l.index n)
      (List.forall_mem_singleton.mpr (.inl (element_read (hhidden _ hl.index) n)))
  rw [show body.map (Stmt.replace (element l.items.ungrouped l.index n))
    = Stmt.replaceAll (element l.items.ungrouped l.index n) [] body by rw [replaceAll_eq]; rfl]
    at hnamed
  have hunused {x : String} (hx : hidden x) (htaken : x ∈ l.index :: l.last :: taken) :
      Stmt.anyExpr (·.isPlaceholder x)
        (Stmt.replaceAll (element l.items.ungrouped l.index n) [] body) = false := by
    rw [anyExpr_isPlaceholder, hnamed.tally_eq_zero hx htaken nofun]
    rfl
  refine ⟨?_, hnamed⟩
  simp only [foreach?, hhead, hrounds, Option.bind_eq_bind, Option.bind_some,
    hbody.anyAssignsTo hl.index]
  rw [if_neg Bool.false_ne_true, if_neg]
  · rfl
  · rw [show (fun e => if Expr.isElement l.items.ungrouped l.index e then
      some (Expr.variable (itemName n)) else none) = element l.items.ungrouped l.index n from rfl,
      anyExpr_or, hunused hl.index (by simp), hunused hl.last (by simp)]
    exact Bool.false_ne_true

theorem loopHead?_eq_some {first second : Stmt} {head : LoopHead}
    (h : loopHead? first second = some head) :
    (∃ t v, first = .assign t v) ∧ ∃ t v, second = .assign t v := by
  unfold loopHead? at h
  split at h
  · exact ⟨⟨_, _, rfl⟩, _, _, rfl⟩
  · cases h

theorem loopBody?_eq_some {head : LoopHead} {third : Stmt} {body : List Stmt}
    (h : loopBody? head third = some body) : ∃ c whole span t v,
      third = .while_ c (.block ⟨whole, span⟩) ∧ whole.getLast? = some (.assign t v) ∧
        whole.dropLast = body := by
  unfold loopBody? at h
  split at h
  · next c whole span =>
    split at h
    · next l r step _ hlast =>
      split at h
      · next hif =>
        cases h
        have hstep := (Bool.and_eq_true_iff.mp hif).2
        unfold isAdvance at hstep
        split at hstep
        · exact ⟨c, whole, span, _, _, rfl, hlast, rfl⟩
        · cases hstep
      · cases h
    · cases h
  · cases h

/-- A loop is found in a `while` that ends in an assignment, and its body is what stands before. -/
theorem foreach?_found {first second third : Stmt} {collection : Expr} {body : List Stmt} {n : Nat}
    (h : foreach? (itemName n) first second third = some (collection, body)) :
    (∃ t v, first = .assign t v) ∧ (∃ t v, second = .assign t v) ∧
      ∃ c whole span t v f, third = .while_ c (.block ⟨whole, span⟩) ∧
        whole.getLast? = some (.assign t v) ∧ Expr.NamesElements f ∧
        body = whole.dropLast.map (Stmt.replace f) := by
  simp only [foreach?, Option.bind_eq_bind, Option.bind_eq_some_iff] at h
  obtain ⟨head, hhead, whole, hwhole, h⟩ := h
  obtain ⟨c, all, span, t, v, hthird, hlast, rfl⟩ := loopBody?_eq_some hwhole
  split at h
  · cases h
  · split at h
    · cases h
    · cases h
      obtain ⟨hfirst, hsecond⟩ := loopHead?_eq_some hhead
      refine ⟨hfirst, hsecond, c, all, span, t, v, _, hthird, hlast,
        element_names head.collection head.index n, ?_⟩
      rw [replaceAll_eq]
      rfl

/-- What folding finds was spelled out for a loop, or was written by hand. -/
theorem foreach?_unfolds {first second third : Stmt} {rest : List Stmt} {a : List Flow}
    {collection : Expr} {body : List Stmt} {n : Nat}
    (hhidden : ∀ x, hidden x → x.toList.head? = some '$')
    (h : foreach? (itemName n) first second third = some (collection, body))
    (hunfolds : Unfolds hidden [] taken a (first :: second :: third :: rest)) :
    ∃ inner inside after, Unfolds hidden [] inner inside body ∧ Unfolds hidden [] taken after rest ∧
      (∀ x, hidden x → collection.tally x = 0) ∧
      ∀ x y, Flow.Folds inside x → Flow.Folds after y → Flow.Folds a (.foreach x :: y) := by
  cases hunfolds with
  | loop hl hitems hinside hafter =>
    obtain ⟨heq, hnamed⟩ := foreach?_rounds hhidden hl hinside
    rw [heq] at h
    cases h
    exact ⟨_, _, _, hnamed, hafter, fun x hx => hitems.ungrouped.tally_eq_zero hx nofun,
      fun x y => .foreach⟩
  | cons hone hunfolds =>
    obtain ⟨⟨_, _, rfl⟩, ⟨_, _, rfl⟩, c, whole, span, t, v, f, rfl, hlast, hf, rfl⟩ :=
      foreach?_found h
    obtain ⟨head, hhead, rfl, -⟩ := foreach?_spec h
    cases hunfolds with
    | cons htwo hunfolds =>
      cases hunfolds with
      | cons hthree hafter =>
        cases hone with
        | assign _ _ _ =>
          cases htwo with
          | assign ht hv _ =>
            cases hthree with
            | while_ _ hthree =>
              cases hthree with
              | block hwhole =>
                obtain ⟨inside, rfl, hinside⟩ := hwhole.unsnoc hlast
                refine ⟨_, _, _, hinside.replace hf nofun, hafter, fun x hx => ?_,
                  fun x y => .found⟩
                have hcollection := loopHead?_tally_le x hhead
                rw [Stmt.tally_assign, ht.tally_eq_zero hx nofun, hv.tally_eq_zero hx nofun]
                  at hcollection
                exact Nat.eq_zero_of_le_zero hcollection

mutual

/-- Folding finds every loop that was spelled out, and mentions no hidden local. -/
theorem Folds.of_unfolds {n : Nat} {ss : List Stmt} {r : List Stmt × Nat} {found : List Found}
    {taken : List String} {a : List Flow} (hhidden : ∀ x, hidden x → x.toList.head? = some '$') :
    Folds n ss r found → Unfolds hidden [] taken a ss →
    Flow.Folds a (Stmt.flows r.1) ∧ ∀ x, hidden x → Stmt.tallyAll x r.1 = 0
  | .nil, hunfolds => by
    cases hunfolds
    exact ⟨.nil, fun _ _ => rfl⟩
  | .loop _ h hbody hrest, hunfolds => by
    obtain ⟨_, _, _, hinside, hafter, hcollection, hflow⟩ := foreach?_unfolds hhidden h hunfolds
    obtain ⟨hfolds, hgone⟩ := hbody.of_unfolds hhidden hinside
    obtain ⟨hfoldsRest, hgoneRest⟩ := hrest.of_unfolds hhidden hafter
    refine ⟨hflow _ _ hfolds hfoldsRest, fun x hx => ?_⟩
    rw [Stmt.tallyAll_cons, Stmt.tally_foreach, ofList, Stmt.tally_block, hgone x hx,
      hgoneRest x hx, hcollection x hx]
  | .keep hnone hs hss, hunfolds => by
    cases hunfolds with
    | loop hl _ hinside _ =>
      have := hnone _ _ _ rfl
      rw [(foreach?_rounds hhidden hl hinside).1] at this
      cases this
    | cons hin hunfolds =>
      obtain ⟨hfolds, hgone⟩ := hs.of_unfolds hhidden hin
      obtain ⟨hfoldsRest, hgoneRest⟩ := hss.of_unfolds hhidden hunfolds
      refine ⟨hfolds.append hfoldsRest, fun x hx => ?_⟩
      rw [Stmt.tallyAll_cons, hgone x hx, hgoneRest x hx]

theorem FoldsIn.of_unfolds {n : Nat} {s : Stmt} {r : Stmt × Nat} {found : List Found}
    {taken : List String} {a : List Flow} (hhidden : ∀ x, hidden x → x.toList.head? = some '$') :
    FoldsIn n s r found → UnfoldsIn hidden [] taken a s →
    Flow.Folds a r.1.flow ∧ ∀ x, hidden x → r.1.tally x = 0
  | .block h, hunfolds => by
    cases hunfolds with
    | block hin => exact h.of_unfolds hhidden hin
  | .if_ h, hunfolds => by
    cases hunfolds with
    | arm hin =>
      obtain ⟨hfolds, hgone⟩ := h.of_unfolds hhidden hin
      refine ⟨hfolds, fun x hx => ?_⟩
      rw [Stmt.tally_if, hgone x hx]
      rfl
    | if_ hc hin =>
      obtain ⟨hfolds, hgone⟩ := h.of_unfolds hhidden hin
      refine ⟨.if_ hfolds .nil .nil, fun x hx => ?_⟩
      rw [Stmt.tally_if, hgone x hx, Option.map_some, hc.tally_eq_zero hx nofun]
      rfl
  | .ifElse h k, hunfolds => by
    cases hunfolds with
    | ifElse hc hin kin =>
      obtain ⟨hfolds, hgone⟩ := h.of_unfolds hhidden hin
      obtain ⟨kfolds, kgone⟩ := k.of_unfolds hhidden kin
      refine ⟨.if_ hfolds kfolds .nil, fun x hx => ?_⟩
      rw [Stmt.tally_ifElse, hgone x hx, kgone x hx, Option.map_some, hc.tally_eq_zero hx nofun]
      rfl
  | .while_ h, hunfolds => by
    cases hunfolds with
    | while_ hc hin =>
      obtain ⟨hfolds, hgone⟩ := h.of_unfolds hhidden hin
      refine ⟨.while_ hfolds .nil, fun x hx => ?_⟩
      rw [Stmt.tally_while, hgone x hx, hc.tally_eq_zero hx nofun]
  | .doWhile h, hunfolds => by
    cases hunfolds with
    | doWhile hin hc =>
      obtain ⟨hfolds, hgone⟩ := h.of_unfolds hhidden hin
      refine ⟨.doWhile hfolds .nil, fun x hx => ?_⟩
      rw [Stmt.tally_doWhile, hgone x hx, hc.tally_eq_zero hx nofun]
  | .foreach _, hunfolds => by cases hunfolds
  | .leaf hweight, hunfolds => by
    cases hunfolds with
    | expr he => exact ⟨.expr .nil, fun _ hx => he.tally_eq_zero hx nofun⟩
    | assign ht hv _ =>
      refine ⟨.assign .nil, fun x hx => ?_⟩
      rw [Stmt.tally_assign, ht.tally_eq_zero hx nofun, hv.tally_eq_zero hx nofun]
    | @return_ _ _ v _ hv =>
      refine ⟨.return_ .nil, fun x hx => ?_⟩
      cases v with
      | none => rfl
      | some e => exact (hv e rfl).tally_eq_zero hx nofun
    | @block _ _ _ body _ _ =>
      have := weightAll_pos body
      rw [Stmt.weight] at hweight
      omega
    | @arm _ _ _ s _ _ | @if_ _ _ _ _ s _ _ _ | @ifElse _ _ _ _ _ s _ _ _ _ _
    | @while_ _ _ _ _ s _ _ | @doWhile _ _ _ _ s _ _ =>
      have := weight_pos s
      rw [Stmt.weight] at hweight
      omega

end

theorem foldLoops_of_unfolds {a : List Flow} {ss : List Stmt}
    (hhidden : ∀ x, hidden x → x.toList.head? = some '$') (h : Unfolds hidden [] taken a ss) :
    Flow.Folds a (Stmt.flows (foldLoops 0 [] ss).1) ∧
      ∀ x, hidden x → Stmt.tallyAll x (foldLoops 0 [] ss).1 = 0 := by
  obtain ⟨ss', m, found, heq, hfolds⟩ := foldLoops_folds 0 [] ss
  rw [heq]
  exact hfolds.of_unfolds hhidden h

end Tidy

end

end Lss
