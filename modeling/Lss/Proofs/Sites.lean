import Lss.Proofs.Compiled

/-!
# Branches and depths of structured code

A statement leaves the stack as it found it, so the depth at an instruction is what the code before
it leaves. Branches of a statement lead to places in it or to its end, with the depth that is
there. So however control gets to an instruction of a compiled body, it brings the same number of
values, and they are enough.
-/
namespace Lss

namespace Code

/-- The byte at which instruction `i` starts; past the last one, that at which the code ends. -/
def offset (code : Code) (i : Nat) : Nat := Code.size (code.take i)

def rise : Code → Int
  | [] => 0
  | i :: code => i.gives - i.takes + rise code

@[simp] theorem rise_nil : rise [] = 0 := rfl

@[simp] theorem rise_cons (i : Instruction) (code : Code) :
    rise (i :: code) = i.gives - i.takes + rise code := rfl

@[simp] theorem rise_append (a b : Code) : rise (a ++ b) = rise a + rise b := by
  induction a with
  | nil => simp
  | cons i a ih =>
    simp only [List.cons_append, rise_cons, ih]
    omega

/-- Instruction `i` behind `pre` has enough values, and if it branches, leads to the end of code
between `lo` and `up` with as many as it leaves. -/
structure Site (lo up pre : Code) (i : Instruction) : Prop where
  enough : (i.takes : Int) ≤ rise pre
  returns : i = .return_ → rise pre = 1
  lands : ∀ kind distance, i = .branch kind distance →
    ∃ a, lo <+: a ∧ a <+: up ∧ (Code.size a : Int) = Code.size pre + 3 + distance.toInt ∧
      rise a = rise pre - i.takes

def Sites (lo up pre : Code) : Code → Prop
  | [] => True
  | i :: code => Site lo up pre i ∧ Sites lo up (pre ++ [i]) code

variable {lo up pre : Code}

theorem sites_append (a b : Code) :
    Sites lo up pre (a ++ b) ↔ Sites lo up pre a ∧ Sites lo up (pre ++ a) b := by
  induction a generalizing pre with
  | nil => simp [Sites]
  | cons i a ih => simp [Sites, ih, and_assoc]

theorem Site.mono {lo' up' : Code} (hlo : lo' <+: lo) (hup : up <+: up') {i : Instruction}
    (h : Site lo up pre i) : Site lo' up' pre i := by
  refine ⟨h.enough, h.returns, fun kind distance heq => ?_⟩
  obtain ⟨a, hla, hah, hspec⟩ := h.lands kind distance heq
  exact ⟨a, hlo.trans hla, hah.trans hup, hspec⟩

theorem Sites.mono {lo' up' code : Code} (hlo : lo' <+: lo) (hup : up <+: up')
    (h : Sites lo up pre code) : Sites lo' up' pre code := by
  induction code generalizing pre with
  | nil => trivial
  | cons i code ih => exact ⟨h.1.mono hlo hup, ih h.2⟩

theorem Sites.getElem? {code : Code} {i : Nat} {instruction : Instruction}
    (h : Sites lo up pre code) (hi : code[i]? = some instruction) :
    Site lo up (pre ++ code.take i) instruction := by
  induction code generalizing pre i with
  | nil => cases hi
  | cons j code ih =>
    cases i with
    | zero =>
      cases hi
      simpa using h.1
    | succ i => simpa using ih h.2 hi

theorem site_of_not_branch {i : Instruction} (henough : (i.takes : Int) ≤ rise pre)
    (hret : i = .return_ → rise pre = 1) (hbranch : ∀ kind distance, i ≠ .branch kind distance) :
    Site lo up pre i :=
  ⟨henough, hret, fun kind distance heq => absurd heq (hbranch kind distance)⟩

theorem site_branch {kind : BranchKind} {distance : Int16} {a : Code}
    (henough : ((Instruction.branch kind distance).takes : Int) ≤ rise pre) (hlo : lo <+: a)
    (hup : a <+: up) (hsize : (Code.size a : Int) = Code.size pre + 3 + distance.toInt)
    (hrise : rise a = rise pre - (Instruction.branch kind distance).takes) :
    Site lo up pre (.branch kind distance) := by
  refine ⟨henough, by simp, fun kind' distance' heq => ?_⟩
  cases heq
  exact ⟨a, hlo, hup, hsize, hrise⟩

end Code

open Code

variable {P : Instruction → Prop}

theorem Pushes.sites {n : Nat} {code : Code} (h : Pushes P n code) :
    rise code = n ∧ ∀ lo up pre, 0 ≤ rise pre → Sites lo up pre code := by
  induction h with
  | nil => exact ⟨rfl, fun _ _ _ _ => trivial⟩
  | @apply n code i _ hop _ ih =>
    obtain ⟨hrise, hsites⟩ := ih
    have hgives := Instruction.gives_of_isOperator hop
    refine ⟨?_, fun lo up pre hpre => ?_⟩
    · simp only [rise_append, rise_cons, rise_nil, hrise, hgives]
      omega
    · refine (sites_append code [i]).mpr ⟨hsites lo up pre hpre, ?_, trivial⟩
      refine site_of_not_branch ?_ ?_ (Instruction.not_branch_of_isOperator hop)
      · simp only [rise_append, hrise]
        omega
      · rintro rfl
        cases hop
  | @dup n code _ ih =>
    obtain ⟨hrise, hsites⟩ := ih
    refine ⟨?_, fun lo up pre hpre => ?_⟩
    · simp only [rise_append, rise_cons, rise_nil, hrise, Instruction.moves_dup]
      omega
    · refine (sites_append code [.dup]).mpr ⟨hsites lo up pre hpre, ?_, trivial⟩
      refine site_of_not_branch ?_ (by simp) (by simp)
      simp only [rise_append, hrise, Instruction.moves_dup]
      omega
  | @construct n code type args argc _ _ _ _ ih iha =>
    obtain ⟨hrise, hsites⟩ := ih
    obtain ⟨harise, hasites⟩ := iha
    refine ⟨?_, fun lo up pre hpre => ?_⟩
    · simp only [rise_append, rise_cons, rise_nil, hrise, harise, Instruction.moves_createObject,
        Instruction.moves_dup, Instruction.moves_lookupMethod, Instruction.moves_callIndirect,
        Instruction.moves_pop]
      omega
    · -- the object, its copy, the arguments, the method, the call, and its result dropped
      simp only [sites_append, Sites, and_true]
      refine ⟨⟨⟨hsites lo up pre hpre, ?_, ?_⟩, hasites _ _ _ ?_⟩, ?_, ?_, ?_⟩
      · refine site_of_not_branch ?_ (by simp) (by simp)
        simp only [rise_append, hrise, Instruction.moves_createObject]
        omega
      · refine site_of_not_branch ?_ (by simp) (by simp)
        simp only [rise_append, rise_cons, rise_nil, hrise, Instruction.moves_createObject,
          Instruction.moves_dup]
        omega
      · simp only [rise_append, rise_cons, rise_nil, hrise, Instruction.moves_createObject,
          Instruction.moves_dup]
        omega
      · refine site_of_not_branch ?_ (by simp) (by simp)
        simp only [rise_append, rise_cons, rise_nil, hrise, harise, Instruction.moves_createObject,
          Instruction.moves_dup, Instruction.moves_lookupMethod]
        omega
      · refine site_of_not_branch ?_ (by simp) (by simp)
        simp only [rise_append, rise_cons, rise_nil, hrise, harise, Instruction.moves_createObject,
          Instruction.moves_dup, Instruction.moves_lookupMethod, Instruction.moves_callIndirect]
        omega
      · refine site_of_not_branch ?_ (by simp) (by simp)
        simp only [rise_append, rise_cons, rise_nil, hrise, harise, Instruction.moves_createObject,
          Instruction.moves_dup, Instruction.moves_lookupMethod, Instruction.moves_callIndirect,
          Instruction.moves_pop]
        omega

/-- Code that leaves the stack as high as it was, with branches that lead to places in it or to its
end. -/
def Code.Level (code : Code) : Prop :=
  rise code = 0 ∧ ∀ pre, rise pre = 0 → Sites pre (pre ++ code) pre code

namespace Code.Level

variable {x y test body arm : Code} {skip past out back : Int16}

theorem append (hx : Level x) (hy : Level y) : Level (x ++ y) := by
  obtain ⟨hxrise, hx⟩ := hx
  obtain ⟨hyrise, hy⟩ := hy
  refine ⟨by simp [hxrise, hyrise], fun pre hpre => ?_⟩
  rw [← List.append_assoc]
  refine (sites_append x y).mpr ⟨(hx pre hpre).mono (List.prefix_refl _) ?_, ?_⟩
  · exact List.prefix_append _ _
  · exact (hy (pre ++ x) (by simp [hpre, hxrise])).mono (List.prefix_append _ _)
      (List.prefix_refl _)

/-- Values, and then an instruction that takes them all. -/
theorem snoc {i : Instruction} (hx : Pushes P i.takes x) (hgives : i.gives = 0)
    (hret : i = .return_ → i.takes = 1) (hbranch : ∀ kind distance, i ≠ .branch kind distance) :
    Level (x ++ [i]) := by
  obtain ⟨hrise, hsites⟩ := hx.sites
  refine ⟨by simp only [rise_append, rise_cons, rise_nil, hrise, hgives]; omega,
    fun pre hpre => ?_⟩
  refine (sites_append x [i]).mpr ⟨hsites _ _ pre (by omega), ?_, trivial⟩
  refine site_of_not_branch ?_ (fun heq => ?_) hbranch
  · simp [hpre, hrise]
  · simp [hpre, hrise, hret heq]

theorem if_ (ht : Pushes P 1 test) (hbody : Level body) (hskip : skip.toInt = Code.size body) :
    Level (test ++ .branch .ifFalse skip :: body) := by
  obtain ⟨hrise, hsites⟩ := ht.sites
  obtain ⟨hbrise, hbody⟩ := hbody
  refine ⟨by simp [hrise, hbrise], fun pre hpre => ?_⟩
  simp only [sites_append, Sites]
  refine ⟨hsites _ _ pre (by omega), ?_, (hbody _ ?_).mono (by simp) (by simp)⟩
  · refine site_branch ?_ (by simp) (List.prefix_refl _) ?_ ?_
    · simp [hpre, hrise]
    · simp only [Code.size_append, Code.size_cons, Instruction.size_branch, hskip]
      omega
    · simp [hpre, hrise, hbrise]
  · simp [hpre, hrise]

theorem ifElse (ht : Pushes P 1 test) (hbody : Level body) (harm : Level arm)
    (hskip : skip.toInt = Code.size body + 3) (hpast : past.toInt = Code.size arm) :
    Level (test ++ .branch .ifFalse skip :: body ++ .branch .always past :: arm) := by
  obtain ⟨hrise, hsites⟩ := ht.sites
  obtain ⟨hbrise, hbody⟩ := hbody
  obtain ⟨harise, harm⟩ := harm
  refine ⟨by simp [hrise, hbrise, harise], fun pre hpre => ?_⟩
  simp only [sites_append, Sites]
  refine ⟨⟨hsites _ _ pre (by omega), ?_, (hbody _ ?_).mono (by simp) (by simp)⟩, ?_,
    (harm _ ?_).mono (by simp) (by simp)⟩
  · -- over the body and the branch behind it
    refine site_branch (a := pre ++ (test ++ .branch .ifFalse skip :: body ++
      [Instruction.branch .always past])) ?_ (by simp) (by simp) ?_ ?_
    · simp [hpre, hrise]
    · simp only [Code.size_append, Code.size_cons, Code.size_nil, Instruction.size_branch, hskip]
      omega
    · simp [hpre, hrise, hbrise]
  · simp [hpre, hrise]
  · refine site_branch ?_ (by simp) (List.prefix_refl _) ?_ ?_
    · simp [hpre, hrise, hbrise]
    · simp only [Code.size_append, Code.size_cons, Instruction.size_branch, hpast]
      omega
    · simp [hpre, hrise, hbrise, harise]
  · simp [hpre, hrise, hbrise]

theorem while_ (ht : Pushes P 1 test) (hbody : Level body)
    (hout : out.toInt = Code.size body + 3)
    (hback : back.toInt = -(Code.size test + Code.size body + 6)) :
    Level (test ++ .branch .ifFalse out :: body ++ [Instruction.branch .always back]) := by
  obtain ⟨hrise, hsites⟩ := ht.sites
  obtain ⟨hbrise, hbody⟩ := hbody
  refine ⟨by simp [hrise, hbrise], fun pre hpre => ?_⟩
  simp only [sites_append, Sites]
  refine ⟨⟨hsites _ _ pre (by omega), ?_, (hbody _ ?_).mono (by simp) (by simp)⟩, ?_, trivial⟩
  · refine site_branch ?_ (by simp) (List.prefix_refl _) ?_ ?_
    · simp [hpre, hrise]
    · simp only [Code.size_append, Code.size_cons, Code.size_nil, Instruction.size_branch, hout]
      omega
    · simp [hpre, hrise, hbrise]
  · simp [hpre, hrise]
  · refine site_branch ?_ (List.prefix_refl pre) (List.prefix_append pre _) ?_ ?_
    · simp [hpre, hrise, hbrise]
    · simp only [Code.size_append, Code.size_cons, Instruction.size_branch, hback]
      omega
    · simp [hpre, hrise, hbrise]

theorem doWhile (hbody : Level body) (ht : Pushes P 1 test)
    (hback : back.toInt = -(Code.size body + Code.size test + 3)) :
    Level (body ++ test ++ [Instruction.branch .ifTrue back]) := by
  obtain ⟨hrise, hsites⟩ := ht.sites
  obtain ⟨hbrise, hbody⟩ := hbody
  refine ⟨by simp [hrise, hbrise], fun pre hpre => ?_⟩
  simp only [sites_append, Sites]
  refine ⟨⟨(hbody pre hpre).mono (by simp) (by simp), hsites _ _ _ ?_⟩, ?_, trivial⟩
  · simp [hpre, hbrise]
  · refine site_branch ?_ (List.prefix_refl pre) (List.prefix_append pre _) ?_ ?_
    · simp [hpre, hrise, hbrise]
    · simp only [Code.size_append, hback]
      omega
    · simp [hpre, hrise, hbrise]

end Code.Level

theorem Shaped.sites {sk : List Skeleton} {code : Code} (h : Shaped P sk code) : code.Level := by
  induction h with
  | nil => exact ⟨rfl, fun _ _ => trivial⟩
  | append _ _ iha ihb => exact iha.append ihb
  | mark line =>
    refine ⟨rfl, fun pre hpre => ⟨site_of_not_branch ?_ (by simp) (by simp), trivial⟩⟩
    simp [hpre]
  | store hv hs _ =>
    refine .snoc hv (Instruction.gives_of_isStore hs) ?_ (Instruction.not_branch_of_isStore hs)
    rintro rfl
    cases hs
  | drop hv => exact .snoc hv rfl (by simp) (by simp)
  | return_ hv => exact .snoc hv rfl (fun _ => rfl) (by simp)
  | if_ ht _ hskip ih => exact .if_ ht ih hskip
  | ifElse ht _ _ hskip hpast iha ihb => exact .ifElse ht iha ihb hskip hpast
  | while_ ht _ hout hback ih => exact .while_ ht ih hout hback
  | doWhile _ ht hback ih => exact .doWhile ih ht hback

namespace Code

variable {code lo up : Code}

theorem offset_succ {i : Nat} {instruction : Instruction} (h : code[i]? = some instruction) :
    code.offset (i + 1) = code.offset i + instruction.size := by
  unfold offset
  rw [List.take_add_one, h]
  simp

theorem offset_lt {i j : Nat} (hij : i < j) (hj : j ≤ code.length) :
    code.offset i < code.offset j := by
  induction j with
  | zero => cases hij
  | succ j ih =>
    rw [offset_succ (List.getElem?_eq_getElem hj)]
    have hpos := (code[j]).size_pos
    rcases Nat.lt_succ_iff_lt_or_eq.mp hij with hlt | rfl
    · have := ih hlt (Nat.le_of_lt hj)
      omega
    · omega

/-- An instruction is known by the byte at which it starts. -/
theorem offset_inj {i j : Nat} (hi : i < code.length) (h : code.offset i = code.offset j) :
    i = j := by
  rcases Nat.lt_trichotomy i j with hlt | heq | hlt
  · by_cases hj : j ≤ code.length
    · have := offset_lt hlt hj
      omega
    · have hend : code.offset j = code.offset code.length := by
        unfold offset
        rw [List.take_of_length_le (Nat.le_of_not_le hj), List.take_length]
      have := offset_lt hi (Nat.le_refl _)
      omega
  · exact heq
  · have := offset_lt hlt (Nat.le_of_lt hi)
    omega

theorem Sites.at_ {pre x : Code} (h : Sites lo up pre x) (hcode : pre ++ x <+: code) {i : Nat}
    {instruction : Instruction} (hi : code[i]? = some instruction) (hle : pre.length ≤ i)
    (hlt : i < pre.length + x.length) : Site lo up (code.take i) instruction := by
  obtain ⟨post, rfl⟩ := hcode
  obtain ⟨k, rfl⟩ := Nat.exists_eq_add_of_le hle
  have hk : k < x.length := by omega
  rw [List.append_assoc, List.getElem?_append_right (Nat.le_add_right _ _),
    Nat.add_sub_cancel_left, List.getElem?_append_left hk] at hi
  have := h.getElem? hi
  rw [List.append_assoc, List.take_length_add_append,
    List.take_append_of_le_length (Nat.le_of_lt hk)]
  exact this

theorem Site.landing {i : Nat} {kind : BranchKind} {distance : Int16}
    (h : Site lo up (code.take i) (.branch kind distance))
    (hi : code[i]? = some (.branch kind distance)) (hup : up <+: code) :
    ∃ t, lo.length ≤ t ∧ t ≤ up.length ∧
      (code.offset (i + 1) : Int) + distance.toInt = code.offset t ∧
      rise (code.take t) = rise (code.take i) - (Instruction.branch kind distance).takes := by
  obtain ⟨a, hla, hah, hsize, hrise⟩ := h.lands kind distance rfl
  have hcode : a = code.take a.length := List.prefix_iff_eq_take.mp (hah.trans hup)
  refine ⟨a.length, hla.length_le, hah.length_le, ?_, ?_⟩
  · rw [offset_succ hi, Instruction.size_branch]
    unfold offset
    rw [← hcode]
    omega
  · rw [← hcode]
    exact hrise

theorem rise_take_succ {i : Nat} {instruction : Instruction} (h : code[i]? = some instruction) :
    rise (code.take (i + 1)) =
      rise (code.take i) + (instruction.gives - instruction.takes : Int) := by
  rw [List.take_add_one, h]
  simp

end Code

/-- Code that ends in a `return` has all its branches lead to places in front of it. -/
theorem Closed.sites {sk : List Skeleton} {code : Code} (h : Closed P sk code) {pre : Code}
    (hpre : rise pre = 0) :
    ∃ up, Sites pre up pre code ∧ up <+: pre ++ code ∧ up.length < (pre ++ code).length ∧
      (pre ++ code).getLast? = some .return_ := by
  obtain ⟨a, x, value, -, rfl, hx, hv⟩ := h
  obtain ⟨hxrise, hxsites⟩ := hx.sites
  obtain ⟨hvrise, hvsites⟩ := hv.sites
  refine ⟨pre ++ x, ?_, by simp, by simp, by simp⟩
  simp only [sites_append, Sites]
  refine ⟨hxsites pre hpre, hvsites _ _ _ ?_, ?_, trivial⟩
  · simp [hpre, hxrise]
  · refine site_of_not_branch ?_ (fun _ => ?_) (by simp)
    · simp [hpre, hxrise, hvrise]
    · simp [hpre, hxrise, hvrise]

theorem Code.sites_prologue (lo up : Code) (isMethod : Bool) (count : UInt8) (extra : UInt16) :
    rise (Code.prologue isMethod count extra) = 0 ∧
      Sites lo up [] (Code.prologue isMethod count extra) := by
  have hall (code : Code) (h : ∀ i ∈ code, i.isPrologue) (pre : Code) (hpre : rise pre = 0) :
      rise code = 0 ∧ Sites lo up pre code := by
    induction code generalizing pre with
    | nil => exact ⟨rfl, trivial⟩
    | cons i code ih =>
      have hi := h i List.mem_cons_self
      have hzero : i.takes = 0 ∧ i.gives = 0 := by
        cases i <;> first | exact ⟨rfl, rfl⟩ | cases hi
      obtain ⟨hrise, hsites⟩ := ih (fun j hj => h j (List.mem_cons_of_mem i hj)) (pre ++ [i])
        (by simp [hpre, hzero])
      refine ⟨by simp [hzero, hrise], site_of_not_branch (by simp [hzero, hpre]) ?_ ?_, hsites⟩
      · rintro rfl
        cases hi
      · rintro kind distance rfl
        cases hi
  exact hall _ (fun i hi => Code.isPrologue_of_mem_prologue hi) [] rfl

/-! ## Compiled code is verifiable -/

namespace Code

/-- Some way from the start, over fall-through and branch edges, reaches instruction `i` with `d`
values on the stack. -/
inductive Reached (code : Code) : Nat → Nat → Prop
  | start : Reached code 0 0
  | next {i d instruction} : Reached code i d → code[i]? = some instruction →
      instruction.endsFlow = false →
      Reached code (i + 1) (d - instruction.takes + instruction.gives)
  | jump {i j d kind distance} : Reached code i d → code[i]? = some (.branch kind distance) →
      (code.offset (i + 1) : Int) + distance.toInt = code.offset j →
      Reached code j (d - (Instruction.branch kind distance).takes)

/-- Branches lead to instructions, no way leaves the code at its end, every way to an instruction
brings one depth, which is enough for it, and a `return` finds one value. -/
structure Verified (code : Code) : Prop where
  lands : ∀ i kind distance, code[i]? = some (.branch kind distance) →
    ∃ j < code.length, (code.offset (i + 1) : Int) + distance.toInt = code.offset j
  inside : ∀ i d, Reached code i d → i < code.length
  depth : ∀ i d e, Reached code i d → Reached code i e → d = e
  enough : ∀ i d instruction, Reached code i d → code[i]? = some instruction →
    instruction.takes ≤ d
  returns : ∀ i d, Reached code i d → code[i]? = some .return_ → d = 1

variable {code up : Code}

theorem Sites.lands (h : Sites [] up [] code) (hup : up <+: code) (hlt : up.length < code.length)
    {i : Nat} {kind : BranchKind} {distance : Int16}
    (hi : code[i]? = some (.branch kind distance)) :
    ∃ j < code.length, (code.offset (i + 1) : Int) + distance.toInt = code.offset j ∧
      rise (code.take j) = rise (code.take i) - (Instruction.branch kind distance).takes := by
  have hsite := h.getElem? hi
  rw [List.nil_append] at hsite
  obtain ⟨j, -, hj, hland⟩ := hsite.landing hi hup
  exact ⟨j, Nat.lt_of_le_of_lt hj hlt, hland⟩

/-- The depth at an instruction is what the instructions before it leave, however it is reached. -/
theorem Sites.reached (h : Sites [] up [] code) (hup : up <+: code)
    (hlt : up.length < code.length) (hlast : code.getLast? = some .return_) {i d : Nat}
    (hr : Reached code i d) : i < code.length ∧ (d : Int) = rise (code.take i) := by
  induction hr with
  | start => exact ⟨Nat.lt_of_le_of_lt (Nat.zero_le _) hlt, rfl⟩
  | @next i d instruction _ hi hflow ih =>
    have henough := (h.getElem? hi).enough
    rw [List.nil_append] at henough
    refine ⟨?_, ?_⟩
    · -- the last instruction ends all ways
      rcases Nat.lt_or_ge (i + 1) code.length with hlt | hge
      · exact hlt
      · have heq : i = code.length - 1 := by omega
        rw [heq, ← List.getLast?_eq_getElem?, hlast] at hi
        cases hi
        cases hflow
    · rw [rise_take_succ hi]
      omega
  | @jump i j d kind distance _ hi hj ih =>
    have henough := (h.getElem? hi).enough
    rw [List.nil_append] at henough
    obtain ⟨k, hk, hoffset, hrise⟩ := h.lands hup hlt hi
    have hjk : k = j := offset_inj hk (by omega)
    subst hjk
    refine ⟨hk, ?_⟩
    rw [hrise]
    omega

theorem verified_of_sites (h : Sites [] up [] code) (hup : up <+: code)
    (hlt : up.length < code.length) (hlast : code.getLast? = some .return_) :
    Verified code := by
  have hreached {i d : Nat} (hr : Reached code i d) := h.reached hup hlt hlast hr
  refine ⟨?_, ?_, ?_, ?_, ?_⟩
  · intro i kind distance hi
    obtain ⟨j, hj, hoffset, -⟩ := h.lands hup hlt hi
    exact ⟨j, hj, hoffset⟩
  · exact fun i d hr => (hreached hr).1
  · intro i d e hd he
    have := (hreached hd).2
    have := (hreached he).2
    omega
  · intro i d instruction hr hi
    have henough := (h.getElem? hi).enough
    rw [List.nil_append, ← (hreached hr).2] at henough
    omega
  · intro i d hr hi
    have hret := (h.getElem? hi).returns rfl
    rw [List.nil_append, ← (hreached hr).2] at hret
    omega

end Code

open Code

theorem BodyOf.verified {P : Nat → Instruction → Prop} {isMethod : Bool} {s : Subroutine}
    {code : Code} (h : BodyOf P isMethod s code) : code.Verified := by
  obtain ⟨count, extra, body, -, -, rfl, hbody⟩ := h
  have hrise := (Code.sites_prologue [] [] isMethod count extra).1
  obtain ⟨up, hsites, hup, hlt, hlast⟩ := hbody.sites hrise
  refine verified_of_sites ((sites_append _ body).mpr ⟨?_, ?_⟩) hup hlt hlast
  · exact (Code.sites_prologue [] up isMethod count extra).2
  · exact hsites.mono List.nil_prefix (List.prefix_refl _)

/-- Every body that compilation gives can be verified, whether it starts on an empty container or
on one that earlier sessions left. -/
theorem compile_verified {sources units : List SourceUnit} {c d : Container} {settings : Settings}
    (hc : c.Grown sources) (h : (c.compile settings units).container = some d) :
    (∀ e ∈ d.functions, e.code.Verified) ∧ ∀ k ∈ d.classes, ∀ e ∈ k.methods, e.code.Verified := by
  have hd := hc.holds.compile h
  refine ⟨fun e he => ?_, fun k hk e he => ?_⟩
  · obtain ⟨s, -, hs⟩ := hd.exists_bears he
    exact hs.code.body.verified
  · obtain ⟨m, -, -, hm⟩ := (hd.classes k hk).methods e he
    exact hm.body.verified

theorem compile_verified_loops :
    ∃ d, ((Container.ofSettings {}).compile {} [Container.callee, Container.caller]).container =
        some d ∧ d.functions.length = 2 ∧
      (∀ e ∈ d.functions, e.code.Verified) ∧ ∀ k ∈ d.classes, ∀ e ∈ k.methods, e.code.Verified := by
  have hrun : ((Container.ofSettings {}).compile {}
      [Container.callee, Container.caller]).container.any (·.functions.length = 2) := by
    decide +kernel
  obtain ⟨d, hd, hlen⟩ := (Option.any_eq_true _ _).mp hrun
  exact ⟨d, hd, of_decide_eq_true hlen, compile_verified (.start {}) hd⟩

end Lss
