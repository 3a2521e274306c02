import Lss.Lifting.Unit
import Lss.Lowering.Session
import Lss.Proofs.Mentions

/-!
# What folding a loop strips

Three statements that spell out a loop over a collection become one, and the two locals that count
are gone with them. Only the body of the loop is searched for other uses of these locals. So where
nothing else uses them, no mention is left anywhere; but a local that is used behind the loop, or in
its collection, loses the assignments that it had.
-/
namespace Lss

/-! The parts of a loop. -/

theorem Expr.placeholder?_of_kind {t : Token} (h : t.kind ≠ .identifier) :
    (Expr.variable t).placeholder? = none :=
  if_neg fun hk => h hk.1

theorem Expr.placeholder?_of_text {t : Token} (h : t.text.toList.head? ≠ some '$') :
    (Expr.variable t).placeholder? = none :=
  if_neg fun hk => h hk.2

theorem Expr.tally_ungrouped_le (x : String) : (e : Expr) → e.ungrouped.tally x ≤ e.tally x
  | .grouping e => by
    have he := e.tally_ungrouped_le x
    rw [ungrouped, tally_grouping]
    omega
  | .literal _ | .variable _ | .unary _ _ _ | .binary _ _ _ | .index _ _ _ | .array _ _
  | .call _ _ _ | .construct _ _ _ | .pending _ => Nat.le_refl _

theorem Expr.tally_left_operand_le (x : String) {e l r : Expr} {kind : TokenKind}
    (h : e.operands? kind = some (l, r)) : l.tally x ≤ e.tally x := by
  refine Nat.le_trans ?_ (e.tally_ungrouped_le x)
  unfold operands? at h
  split at h
  · next heq =>
    split at h
    · cases h
      rw [heq, tally_binary]
      omega
    · cases h
  · cases h

namespace Tidy

section

variable {x : String} {first second third : Stmt} {head : LoopHead} {collection : Expr}
  {body : List Stmt} {n : Nat}

/-- The collection is part of the second statement. -/
theorem loopHead?_tally_le (x : String) (h : loopHead? first second = some head) :
    head.collection.tally x ≤ second.tally x := by
  unfold loopHead? at h
  split at h
  · next m bound =>
    obtain ⟨index, -, h⟩ := Option.bind_eq_some_iff.mp h
    split at h
    · cases h
    · obtain ⟨last, -, h⟩ := Option.bind_eq_some_iff.mp h
      obtain ⟨⟨length, one⟩, hlength, h⟩ := Option.bind_eq_some_iff.mp h
      dsimp only at h
      split at h
      · cases h
      · obtain ⟨⟨collection, property⟩, hcollection, h⟩ := Option.bind_eq_some_iff.mp h
        dsimp only at h
        split at h
        · cases h
          have hungrouped := collection.tally_ungrouped_le x
          have hlength := Expr.tally_left_operand_le x hlength
          have hcollection := Expr.tally_left_operand_le x hcollection
          rw [Stmt.tally_assign]
          dsimp only
          omega
        · cases h
  · cases h

theorem loopBody?_tally_le (x : String) (h : loopBody? head third = some body) :
    Stmt.tallyAll x body ≤ third.tally x := by
  unfold loopBody? at h
  split at h
  · next c whole _ =>
    split at h
    · next step _ hlast =>
      split at h
      · cases h
        obtain ⟨body, rfl⟩ := List.getLast?_eq_some_iff.mp hlast
        rw [List.dropLast_concat, Stmt.tally_while, Stmt.tally_block, Stmt.tallyAll_append]
        omega
      · cases h
    · cases h
  · cases h

/-- What stands for an element is no placeholder. -/
theorem placeholder?_itemName (n : Nat) : (Expr.variable (itemName n)).placeholder? = none := by
  have hfirst : (itemName n).text.toList.head? = some 'i' := by
    rw [show (itemName n).text = "item" ++ toString n from rfl, String.toList_append]
    rfl
  exact Expr.placeholder?_of_text (by rw [hfirst]; decide)

theorem itemName_avoids (x : String) (n : Nat) (p : Expr → Bool) :
    Avoids x fun e => if p e then some (.variable (itemName n)) else none := by
  have hnone : (Expr.variable (itemName n)).isPlaceholder x = false := by
    rw [Expr.isPlaceholder, placeholder?_itemName]
    rfl
  intro e e' h
  dsimp only at h
  split at h
  · cases h
    refine ⟨hnone, ?_⟩
    rw [Expr.tally, Expr.fold, tallyStep, hnone]
    rfl
  · cases h

/-- A loop was found where its head is, its body mentions neither local, and it mentions nothing
more often than the statements that spelled it out. -/
theorem foreach?_spec (h : foreach? (itemName n) first second third = some (collection, body)) :
    ∃ head, loopHead? first second = some head ∧ head.collection = collection ∧
      (∀ x ∈ [head.index, head.last], Stmt.tallyAll x body = 0) ∧
      ∀ x, Stmt.tallyAll x body ≤ third.tally x := by
  simp only [foreach?, Option.bind_eq_bind, Option.bind_eq_some_iff] at h
  obtain ⟨head, hhead, whole, hwhole, h⟩ := h
  split at h
  · cases h
  · split at h
    · cases h
    · next hunused =>
      cases h
      rw [Stmt.anyExpr_or, Stmt.anyExpr_isPlaceholder, Stmt.anyExpr_isPlaceholder,
        Bool.or_eq_true, not_or, decide_eq_true_iff, decide_eq_true_iff] at hunused
      refine ⟨head, hhead, rfl, fun x hx => ?_, fun x => ?_⟩
      · simp only [List.mem_cons, List.not_mem_nil, or_false] at hx
        rcases hx with rfl | rfl
        · exact Nat.eq_zero_of_not_pos hunused.1
        · exact Nat.eq_zero_of_not_pos hunused.2
      · exact Nat.le_trans (Stmt.tallyAll_replace_le (itemName_avoids x n _) whole)
          (loopBody?_tally_le x hwhole)

end

/-! The loops that folding finds. -/

/-- A loop that was folded: the three statements that spelled it out, as they stood then, and the
body that it has in the end. -/
structure Found where
  head : LoopHead
  first : Stmt
  second : Stmt
  third : Stmt
  body : List Stmt

namespace Found

def locals (l : Found) : List String := [l.head.index, l.head.last]

def statements (l : Found) : List Stmt := [l.first, l.second, l.third]

end Found

mutual

/-- How a list of statements folds when `n` loops were found before, and what is found in it, in
the order of the text. -/
inductive Folds : Nat → List Stmt → List Stmt × Nat → List Found → Prop
  | nil {n} : Folds n [] ([], n) []
  | loop {n first second third rest head collection body body' n' rest' m found more} :
      loopHead? first second = some head →
      foreach? (itemName (n + 1)) first second third = some (collection, body) →
      Folds (n + 1) body (body', n') found → Folds n' rest (rest', m) more →
      Folds n (first :: second :: third :: rest)
        (.foreach (itemName (n + 1)) collection (.ofList body') :: rest', m)
        (⟨head, first, second, third, body'⟩ :: (found ++ more))
  | keep {n s s' n' ss ss' m found more} :
      (∀ second third rest, ss = second :: third :: rest →
        foreach? (itemName (n + 1)) s second third = none) →
      FoldsIn n s (s', n') found → Folds n' ss (ss', m) more →
      Folds n (s :: ss) (s' :: ss', m) (found ++ more)

inductive FoldsIn : Nat → Stmt → Stmt × Nat → List Found → Prop
  | block {n body body' m found span} : Folds n body (body', m) found →
      FoldsIn n (.block ⟨body, span⟩) (.block ⟨body', span⟩, m) found
  | if_ {n c body body' m found span} : FoldsIn n body (body', m) found →
      FoldsIn n (.if_ c body none span) (.if_ c body' none span, m) found
  | ifElse {n c body body' n' arm arm' m found more span} : FoldsIn n body (body', n') found →
      FoldsIn n' arm (arm', m) more →
      FoldsIn n (.if_ c body (some arm) span) (.if_ c body' (some arm') span, m) (found ++ more)
  | while_ {n c body body' m found} : FoldsIn n body (body', m) found →
      FoldsIn n (.while_ c body) (.while_ c body', m) found
  | doWhile {n body body' m found c} : FoldsIn n body (body', m) found →
      FoldsIn n (.doWhile body c) (.doWhile body' c, m) found
  | foreach {n x c body body' m found} : FoldsIn n body (body', m) found →
      FoldsIn n (.foreach x c body) (.foreach x c body', m) found
  | leaf {n s} : s.weight = 1 → FoldsIn n s (s, n) []

end

mutual

theorem foldLoops_folds (n : Nat) (acc ss : List Stmt) : ∃ ss' m found,
    foldLoops n acc ss = (acc.reverse ++ ss', m) ∧ Folds n ss (ss', m) found := by
  match ss with
  | [] =>
    rw [foldLoops]
    exact ⟨[], n, [], by rw [List.append_nil], .nil⟩
  | [a] =>
    obtain ⟨a', n', found, ha, hfolds⟩ := foldInside_folds n a
    rw [foldLoops, ha]
    exact ⟨[a'], n', found ++ [], by simp, .keep nofun hfolds .nil⟩
  | [a, b] =>
    obtain ⟨a', n', found, ha, hfolds⟩ := foldInside_folds n a
    obtain ⟨ss', m, more, hss, hrest⟩ := foldLoops_folds n' (a' :: acc) [b]
    rw [foldLoops, ha]
    exact ⟨a' :: ss', m, found ++ more, by simp [hss], .keep nofun hfolds hrest⟩
  | a :: b :: c :: rest =>
    rw [foldLoops]
    split
    · next collection body h =>
      have _lt := weightAll_foreach h
      obtain ⟨head, hhead, rfl, -⟩ := foreach?_spec h
      obtain ⟨body', n', found, hbody, hfolds⟩ := foldLoops_folds (n + 1) [] body
      rw [hbody]
      obtain ⟨rest', m, more, hss, hrest⟩ := foldLoops_folds n'
        (.foreach (itemName (n + 1)) head.collection (.ofList ([] ++ body')) :: acc) rest
      exact ⟨_, m, _, by simpa using hss, .loop hhead h hfolds hrest⟩
    · next h =>
      obtain ⟨a', n', found, ha, hfolds⟩ := foldInside_folds n a
      obtain ⟨ss', m, more, hss, hrest⟩ := foldLoops_folds n' (a' :: acc) (b :: c :: rest)
      rw [ha]
      refine ⟨a' :: ss', m, found ++ more, by simp [hss], .keep ?_ hfolds hrest⟩
      rintro _ _ _ ⟨⟩
      exact h
termination_by Stmt.weightAll ss
decreasing_by all_goals (simp only [Stmt.weightAll] at *; omega)

theorem foldInside_folds (n : Nat) (s : Stmt) : ∃ s' m found,
    foldInside n s = (s', m) ∧ FoldsIn n s (s', m) found := by
  match s with
  | .block ⟨body, span⟩ =>
    obtain ⟨body', m, found, hbody, hfolds⟩ := foldLoops_folds n [] body
    exact ⟨_, m, found, by rw [foldInside, hbody]; rfl, .block hfolds⟩
  | .if_ c body (some arm) span =>
    obtain ⟨body', n', found, hbody, hfolds⟩ := foldInside_folds n body
    obtain ⟨arm', m, more, harm, hmore⟩ := foldInside_folds n' arm
    exact ⟨_, m, found ++ more, by rw [foldInside, hbody]; simp only [harm], .ifElse hfolds hmore⟩
  | .if_ c body none span =>
    obtain ⟨body', m, found, hbody, hfolds⟩ := foldInside_folds n body
    exact ⟨_, m, found, by rw [foldInside, hbody], .if_ hfolds⟩
  | .while_ c body =>
    obtain ⟨body', m, found, hbody, hfolds⟩ := foldInside_folds n body
    exact ⟨_, m, found, by rw [foldInside, hbody], .while_ hfolds⟩
  | .doWhile body c =>
    obtain ⟨body', m, found, hbody, hfolds⟩ := foldInside_folds n body
    exact ⟨_, m, found, by rw [foldInside, hbody], .doWhile hfolds⟩
  | .foreach x c body =>
    obtain ⟨body', m, found, hbody, hfolds⟩ := foldInside_folds n body
    exact ⟨_, m, found, by rw [foldInside, hbody], .foreach hfolds⟩
  | .expr _ | .return_ _ _ | .assign _ _ | .var _ _ | .classDecl _ | .property _ | .subroutine _
  | .global _ =>
    exact ⟨_, n, [], by simp [foldInside], .leaf rfl⟩
termination_by s.weight
decreasing_by all_goals (simp only [Stmt.weight] at *; omega)

end

/-! Mentions before and after. -/

mutual

/-- Folding adds no mention of anything. -/
theorem Folds.tally_le (x : String) {n : Nat} {ss : List Stmt} {r : List Stmt × Nat}
    {found : List Found} : Folds n ss r found → Stmt.tallyAll x r.1 ≤ Stmt.tallyAll x ss
  | .nil => Nat.le_refl _
  | .loop hhead h hbody hrest => by
    obtain ⟨head, hhead', rfl, -, hle⟩ := foreach?_spec h
    have hcollection := loopHead?_tally_le x hhead'
    have hloop := hle x
    have hbody := hbody.tally_le x
    have hrest := hrest.tally_le x
    simp only [Stmt.tallyAll_cons, Stmt.tally_foreach, Stmt.ofList, Stmt.tally_block] at *
    omega
  | .keep _ hs hss => by
    have hs := hs.tally_le x
    have hss := hss.tally_le x
    simp only [Stmt.tallyAll_cons] at *
    omega

theorem FoldsIn.tally_le (x : String) {n : Nat} {s : Stmt} {r : Stmt × Nat} {found : List Found} :
    FoldsIn n s r found → r.1.tally x ≤ s.tally x
  | .block h => h.tally_le x
  | .if_ h => by
    have := h.tally_le x
    simp only [Stmt.tally_if] at *
    omega
  | .ifElse h k => by
    have := h.tally_le x
    have := k.tally_le x
    simp only [Stmt.tally_ifElse] at *
    omega
  | .while_ h => by
    have := h.tally_le x
    simp only [Stmt.tally_while] at *
    omega
  | .doWhile h => by
    have := h.tally_le x
    simp only [Stmt.tally_doWhile] at *
    omega
  | .foreach h => by
    have := h.tally_le x
    simp only [Stmt.tally_foreach] at *
    omega
  | .leaf _ => Nat.le_refl _

end

variable {x : String} {l : Found}

mutual

/-- A loop takes the mentions of its locals in its three statements out of the body, those in the
collection apart, and its own body has none. -/
theorem Folds.strips {n : Nat} {ss : List Stmt} {r : List Stmt × Nat} {found : List Found}
    (hx : x ∈ l.locals) : Folds n ss r found → l ∈ found → Stmt.tallyAll x l.body = 0 ∧
      Stmt.tallyAll x r.1 + Stmt.tallyAll x l.statements
        ≤ Stmt.tallyAll x ss + l.head.collection.tally x
  | .loop hhead h hbody hrest, hl => by
    obtain ⟨head, hhead', rfl, hunused, hle⟩ := foreach?_spec h
    rw [hhead] at hhead'
    cases hhead'
    have hcollection := loopHead?_tally_le x hhead
    have hbodyLe := hbody.tally_le x
    have hrestLe := hrest.tally_le x
    have hloop := hle x
    rcases List.mem_cons.mp hl with rfl | hl
    · have hnone := hunused x hx
      simp only [Stmt.tallyAll_cons, Stmt.tally_foreach, Stmt.ofList, Stmt.tally_block,
        Found.statements, Stmt.tallyAll_nil] at *
      omega
    · rcases List.mem_append.mp hl with hl | hl
      · have := hbody.strips hx hl
        simp only [Stmt.tallyAll_cons, Stmt.tally_foreach, Stmt.ofList, Stmt.tally_block] at *
        omega
      · have := hrest.strips hx hl
        simp only [Stmt.tallyAll_cons, Stmt.tally_foreach, Stmt.ofList, Stmt.tally_block] at *
        omega
  | .keep _ hs hss, hl => by
    have hsLe := hs.tally_le x
    have hssLe := hss.tally_le x
    simp only [Stmt.tallyAll_cons] at *
    rcases List.mem_append.mp hl with hl | hl
    · have := hs.strips hx hl
      dsimp only at *
      omega
    · have := hss.strips hx hl
      dsimp only at *
      omega

theorem FoldsIn.strips {n : Nat} {s : Stmt} {r : Stmt × Nat} {found : List Found}
    (hx : x ∈ l.locals) : FoldsIn n s r found → l ∈ found → Stmt.tallyAll x l.body = 0 ∧
      r.1.tally x + Stmt.tallyAll x l.statements ≤ s.tally x + l.head.collection.tally x
  | .block h, hl => h.strips hx hl
  | .if_ h, hl => by
    have := h.strips hx hl
    simp only [Stmt.tally_if] at *
    omega
  | .ifElse h k, hl => by
    have hLe := h.tally_le x
    have kLe := k.tally_le x
    simp only [Stmt.tally_ifElse] at *
    rcases List.mem_append.mp hl with hl | hl
    · have := h.strips hx hl
      dsimp only at *
      omega
    · have := k.strips hx hl
      dsimp only at *
      omega
  | .while_ h, hl => by
    have := h.strips hx hl
    simp only [Stmt.tally_while] at *
    omega
  | .doWhile h, hl => by
    have := h.strips hx hl
    simp only [Stmt.tally_doWhile] at *
    omega
  | .foreach h, hl => by
    have := h.strips hx hl
    simp only [Stmt.tally_foreach] at *
    omega

end

/-- Three statements at the front that spell out a loop are found. -/
theorem Folds.exists_found {n : Nat} {first second third : Stmt} {rest : List Stmt}
    {r : List Stmt × Nat} {found : List Found}
    (h : Folds n (first :: second :: third :: rest) r found)
    (hsome : (foreach? (itemName (n + 1)) first second third).isSome) :
    ∃ l ∈ found, loopHead? first second = some l.head ∧ l.statements = [first, second, third] := by
  cases h with
  | loop hhead _ _ _ => exact ⟨_, List.mem_cons_self, hhead, rfl⟩
  | keep hnone _ _ =>
    rw [hnone second third rest rfl] at hsome
    cases hsome

/-- Nothing but the loop uses its locals, and its collection does not either. -/
def Found.Private (l : Found) (ss : List Stmt) : Prop :=
  ∀ x ∈ l.locals, Stmt.tallyAll x ss ≤ Stmt.tallyAll x l.statements ∧
    l.head.collection.tally x = 0

/-- Every loop that folding makes has a body without its two locals; and if these are used for
nothing but the loop, nothing in the whole folded list mentions them. -/
theorem foldLoops_strips (ss : List Stmt) :
    (∃ found, Folds 0 ss (foldLoops 0 [] ss) found) ∧
      ∀ found, Folds 0 ss (foldLoops 0 [] ss) found → ∀ l ∈ found, ∀ x ∈ l.locals,
        Stmt.anyExpr (·.isPlaceholder x) l.body = false ∧
          (l.Private ss → Stmt.anyExpr (·.isPlaceholder x) (foldLoops 0 [] ss).1 = false) := by
  constructor
  · obtain ⟨ss', m, found, heq, hfolds⟩ := foldLoops_folds 0 [] ss
    rw [heq]
    exact ⟨found, hfolds⟩
  · intro found hfolds l hl x hx
    obtain ⟨hbody, hle⟩ := hfolds.strips hx hl
    simp only [Stmt.anyExpr_isPlaceholder, decide_eq_false_iff_not, Nat.not_lt, Nat.le_zero]
    refine ⟨hbody, fun hprivate => ?_⟩
    obtain ⟨houter, hcollection⟩ := hprivate x hx
    omega

end Tidy

def Container.bodyOf (c : Container) (f : FunctionEntry) : Except DecompileError (List Stmt) := do
  let body ← Body.ofCode (.ofContainer c) { parameterCount := f.parameterCount }
    (f.code.dropWhile Instruction.isPrologue)
  body.statements

namespace Tidy

/-- A source whose only function starts with a loop that folds, and `p` of its body and the loop. -/
def loopIn? (source : String) (p : List Stmt → LoopHead → Bool) : Bool :=
  (Container.compileSource {} source none).container.any fun c =>
    c.functions.any fun f =>
      match c.bodyOf f with
      | .ok (a :: b :: w :: rest) =>
        (loopHead? a b).any (p (a :: b :: w :: rest)) && (foreach? (itemName 1) a b w).isSome
      | _ => false

theorem exists_of_loopIn? {source : String} {p : List Stmt → LoopHead → Bool}
    (h : loopIn? source p) : ∃ (c : Container) (f : FunctionEntry) (ss : List Stmt)
      (found : List Found) (l : Found),
      (Container.compileSource {} source none).container = some c ∧ f ∈ c.functions ∧
        c.bodyOf f = .ok ss ∧ Folds 0 ss (foldLoops 0 [] ss) found ∧ l ∈ found ∧
        l.statements = ss.take 3 ∧ p ss l.head := by
  obtain ⟨c, hc, h⟩ := (Option.any_eq_true _ _).mp h
  obtain ⟨f, hf, h⟩ := List.any_eq_true.mp h
  split at h
  · next a b w rest hbody =>
    obtain ⟨hhead, hsome⟩ := Bool.and_eq_true_iff.mp h
    obtain ⟨ss', m, found, heq, hfolds⟩ := foldLoops_folds 0 [] (a :: b :: w :: rest)
    obtain ⟨l, hl, hsame, hstatements⟩ := hfolds.exists_found hsome
    rw [hsame, Option.any_some] at hhead
    refine ⟨c, f, _, found, l, hc, hf, hbody, ?_, hl, hstatements, hhead⟩
    rw [heq]
    exact hfolds
  · cases h

def stepped : String := "function each(list) { foreach (x in list) list.add(x); }"

theorem foldLoops_strips_stepped : ∃ (c : Container) (f : FunctionEntry) (ss : List Stmt)
    (found : List Found) (l : Found),
    (Container.compileSource {} stepped none).container = some c ∧ f ∈ c.functions ∧
      c.bodyOf f = .ok ss ∧ Folds 0 ss (foldLoops 0 [] ss) found ∧ l ∈ found ∧ l.Private ss ∧
      ∀ x ∈ l.locals, Stmt.anyExpr (·.isPlaceholder x) (foldLoops 0 [] ss).1 = false := by
  have hrun : loopIn? stepped fun ss head => [head.index, head.last].all fun x =>
      Stmt.tallyAll x ss ≤ Stmt.tallyAll x (ss.take 3) && head.collection.tally x == 0 := by
    decide +kernel
  obtain ⟨c, f, ss, found, l, hc, hf, hbody, hfolds, hl, hstatements, hspec⟩ :=
    exists_of_loopIn? hrun
  have hprivate : l.Private ss := by
    intro x hx
    obtain ⟨houter, hcollection⟩ := Bool.and_eq_true_iff.mp (List.all_eq_true.mp hspec x hx)
    rw [hstatements]
    exact ⟨of_decide_eq_true houter, eq_of_beq hcollection⟩
  exact ⟨c, f, ss, found, l, hc, hf, hbody, hfolds, hl, hprivate,
    fun x hx => ((foldLoops_strips ss).2 found hfolds l hl x hx).2 hprivate⟩

def counted : String :=
  "function count(list) \x7b var i = 0; var m = list.length - 1; while (m >= i) { i = i + 1; }" ++
    " return i; \x7d"

/-- What is returned has lost every assignment to it. -/
theorem foldLoops_strips_counter : ∃ (c : Container) (f : FunctionEntry) (ss : List Stmt)
    (found : List Found) (l : Found),
    (Container.compileSource {} counted none).container = some c ∧ f ∈ c.functions ∧
      c.bodyOf f = .ok ss ∧ Folds 0 ss (foldLoops 0 [] ss) found ∧ l ∈ found ∧
      Stmt.anyExpr (·.isPlaceholder l.head.index) (foldLoops 0 [] ss).1 = true ∧
      Stmt.anyAssignsTo (·.isPlaceholder l.head.index) (foldLoops 0 [] ss).1 = false := by
  have hrun : loopIn? counted fun ss head =>
      Stmt.anyExpr (·.isPlaceholder head.index) (foldLoops 0 [] ss).1 &&
        !Stmt.anyAssignsTo (·.isPlaceholder head.index) (foldLoops 0 [] ss).1 := by
    decide +kernel
  obtain ⟨c, f, ss, found, l, hc, hf, hbody, hfolds, hl, -, hspec⟩ := exists_of_loopIn? hrun
  obtain ⟨hread, hnone⟩ := Bool.and_eq_true_iff.mp hspec
  exact ⟨c, f, ss, found, l, hc, hf, hbody, hfolds, hl, hread, by simpa using hnone⟩

end Tidy

end Lss
