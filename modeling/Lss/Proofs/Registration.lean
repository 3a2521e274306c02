import Lss.Lowering.Session
import Lss.Proofs.Basic
import Lss.Proofs.Tables

/-!
# Registration

Before any body is compiled, all names are registered. If that gives no errors, every function has
a name of its own, every class is there, and the classes can all be put in order.
-/
namespace Lss

namespace Session

def parameterCount (f : Subroutine) : UInt8 := UInt8.ofNat (min f.parameters.length 255)

structure Registers (r : Registered) (fs : List Subroutine) (r' : Registered) : Prop where
  errors : r.errors = []
  bodies : r'.bodies = (fs.map fun f => (f, parameterCount f)).reverse ++ r.bodies
  nodup : (fs.map (·.name.text)).Nodup
  fresh : ∀ f ∈ fs, f.name.text ∉ r.known
  known : ∀ name argc, r'.known[name]? = some argc → r.known[name]? = some argc ∨
    ∃ f ∈ fs, f.name.text = name ∧ parameterCount f = argc

theorem registers_foldl {r : Registered} {fs : List Subroutine}
    (h : (fs.foldl Registered.add r).errors = []) :
    Registers r fs (fs.foldl Registered.add r) := by
  induction fs generalizing r with
  | nil => exact ⟨h, rfl, List.nodup_nil, by simp, fun _ _ hk => Or.inl hk⟩
  | cons f fs ih =>
    rw [List.foldl_cons] at h ⊢
    have hrest := ih h
    by_cases hf : r.known.contains f.name.text
    · have := hrest.errors
      simp [Registered.add, hf] at this
    · have hadd : r.add f = { r with
          known := r.known.insert f.name.text (parameterCount f)
          bodies := (f, parameterCount f) :: r.bodies } := by
        simp [Registered.add, hf, parameterCount]
      rw [hadd] at hrest ⊢
      have hne (g : Subroutine) (hg : g ∈ fs) :
          f.name.text ≠ g.name.text ∧ g.name.text ∉ r.known := by
        have := hrest.fresh g hg
        rw [Std.TreeMap.mem_insert, not_or] at this
        refine ⟨fun heq => this.1 ?_, this.2⟩
        rw [heq]
        exact Std.ReflCmp.compare_self
      refine ⟨hrest.errors, ?_, ?_, ?_, ?_⟩
      · rw [hrest.bodies]
        simp
      · rw [List.map_cons, List.nodup_cons]
        refine ⟨?_, hrest.nodup⟩
        intro hmem
        obtain ⟨g, hg, heq⟩ := List.mem_map.mp hmem
        exact (hne g hg).1 heq.symm
      · intro g hg
        rcases List.mem_cons.mp hg with rfl | hg
        · exact hf
        · exact (hne g hg).2
      · intro name argc hk
        rcases hrest.known name argc hk with hk | ⟨g, hg, hname, hcount⟩
        · rw [Std.TreeMap.getElem?_insert] at hk
          split at hk
          · next hc =>
            have := Std.LawfulEqCmp.eq_of_compare hc
            exact Or.inr ⟨f, List.mem_cons_self, this, Option.some.inj hk⟩
          · exact Or.inl hk
        · exact Or.inr ⟨g, List.mem_cons_of_mem f hg, hname, hcount⟩

theorem mem_signatures {c : Container} {name : String} {argc : UInt8}
    (h : (signatures c)[name]? = some argc) :
    ∃ e ∈ c.functions, e.name = name ∧ e.parameterCount = argc := by
  rcases mem_of_foldl_insert (f := fun e : FunctionEntry => e.name)
    (g := fun e => e.parameterCount) h with h | h
  · simp at h
  · exact h

theorem name_mem_signatures {c : Container} {e : FunctionEntry} (h : e ∈ c.functions) :
    e.name ∈ signatures c := by
  rw [Std.TreeMap.mem_iff_isSome_getElem?]
  exact isSome_foldl_insert (f := fun e : FunctionEntry => e.name)
    (g := fun e => e.parameterCount) (Or.inr ⟨e, h, rfl⟩)

theorem foldl_addGlobal {s : Session} {names : List Token} (hg : s.container.globals.Exact)
    (h : (names.foldl addGlobal s).errors = []) :
    s.errors = [] ∧ ∃ globals : NameTable, globals.Exact ∧ s.container.globals.Extends globals ∧
      (names.foldl addGlobal s).container = { s.container with globals } := by
  induction names generalizing s with
  | nil => exact ⟨h, s.container.globals, hg, .refl _, rfl⟩
  | cons name names ih =>
    rw [List.foldl_cons] at h ⊢
    obtain ⟨⟨major, minor, strings, symbols, globals, functions, classes⟩, errors, warnings⟩ := s
    simp only at hg
    generalize hi : globals.intern name.text = r
    obtain ⟨result, grown⟩ := r
    cases result with
    | ok i =>
      simp only [addGlobal, hi] at h ⊢
      obtain ⟨hexact, hext, -⟩ := hg.intern hi
      obtain ⟨herr, last, hlast, hgrows, heq⟩ := ih hexact h
      exact ⟨herr, last, hlast, hext.trans hgrows, heq⟩
    | error e =>
      simp only [addGlobal, hi] at h
      have hsame : grown.Exact := by
        unfold NameTable.intern at hi
        split at hi
        · cases hi
        · split at hi
          · cases hi
          · cases hi
            exact hg
      obtain ⟨herr, -⟩ := ih hsame h
      cases herr

theorem foldl_addClass {taken : Container} {decls acc : List ClassDecl}
    {errors : List CompileError} (h : (decls.foldl (addClass taken) (acc, errors)).2 = []) :
    errors = [] ∧ (decls.foldl (addClass taken) (acc, errors)).1 = decls.reverse ++ acc := by
  induction decls generalizing acc errors with
  | nil => exact ⟨h, rfl⟩
  | cons c decls ih =>
    rw [List.foldl_cons] at h ⊢
    generalize hadd : addClass taken (acc, errors) c = r at h ⊢
    obtain ⟨acc', errors'⟩ := r
    obtain ⟨herr, hall⟩ := ih h
    unfold addClass at hadd
    split at hadd
    · cases hadd
      cases herr
    · cases hadd
      refine ⟨herr, ?_⟩
      rw [hall]
      simp

theorem isSome_layouts {c : Container} {decls : List ClassDecl} {d : ClassDecl} (h : d ∈ decls) :
    (layouts c decls)[d.name.text]?.isSome := by
  have hadd (decls : List ClassDecl) (ls : List ClassLayout) (name : String)
      (h : (∃ l ∈ ls, l.name = name) ∨ ∃ d ∈ decls, d.name.text = name) :
      ∃ l ∈ decls.foldl (fun ls decl => ClassLayout.derive decl
        (decl.base.bind fun base => ls.find? (·.name == base.text)) :: ls) ls, l.name = name := by
    induction decls generalizing ls with
    | nil =>
      rcases h with h | ⟨d, hd, -⟩
      · exact h
      · cases hd
    | cons decl decls ih =>
      refine ih _ ?_
      rcases h with ⟨l, hl, hname⟩ | ⟨d, hd, hname⟩
      · exact Or.inl ⟨l, List.mem_cons_of_mem _ hl, hname⟩
      · rcases List.mem_cons.mp hd with rfl | hd
        · exact Or.inl ⟨_, List.mem_cons_self, hname⟩
        · exact Or.inr ⟨d, hd, hname⟩
  obtain ⟨l, hl, hname⟩ := hadd decls _ d.name.text (Or.inr ⟨d, h, rfl⟩)
  have hl : l ∈ (ClassLayout.all c decls).reverse := List.mem_reverse.mpr hl
  rw [layouts, ← List.foldl_reverse]
  exact isSome_foldl_insert (f := fun l : ClassLayout => l.name) (g := fun l => l)
    (Or.inr ⟨l, hl, hname⟩)

end Session

namespace ClassOrder

variable {classes : Array ClassDecl} {byName : Std.TreeMap String Nat} {existing : Container}
  {done : Progress}

/-- A way along sound bases takes what it passes out of those that wait, and its first class too. -/
theorem walk_sound {path waiting : List Nat} {i : Nat} {path' waiting' : List Nat}
    (h : walk classes byName existing done path waiting i = (path', waiting', .sound)) :
    (∀ x ∈ path, x ∈ path') ∧ (∀ x ∈ waiting, x ∈ path' ∨ x ∈ waiting') ∧
      (i ∈ path' ∨ i ∈ done.ordered) := by
  have hpass (x : Nat) (waiting : List Nat) (hx : x ∈ waiting) (i : Nat) (path : List Nat) :
      x ∈ i :: path ∨ x ∈ waiting.erase i := by
    by_cases hxi : x = i
    · exact Or.inl (by simp [hxi])
    · exact Or.inr ((List.mem_erase_of_ne hxi).mpr hx)
  fun_induction walk classes byName existing done path waiting i with
  | case1 path waiting i hi _ hbase =>
    cases h
    exact ⟨fun x hx => List.mem_cons_of_mem i hx, fun x hx => hpass x waiting hx i path,
      Or.inl List.mem_cons_self⟩
  | case2 path waiting i hi _ base hbase j hj ih =>
    obtain ⟨hpath, hwait, -⟩ := ih h
    refine ⟨fun x hx => hpath x (List.mem_cons_of_mem i hx), fun x hx => ?_,
      Or.inl (hpath i List.mem_cons_self)⟩
    rcases hpass x waiting hx i path with hx | hx
    · exact Or.inl (hpath x hx)
    · exact hwait x hx
  | case3 path waiting i hi _ base hbase _ hex =>
    cases h
    exact ⟨fun x hx => List.mem_cons_of_mem i hx, fun x hx => hpass x waiting hx i path,
      Or.inl List.mem_cons_self⟩
  | case4 => cases h
  | case5 path waiting i hi hord =>
    cases h
    exact ⟨fun x hx => hx, fun x hx => Or.inr hx, Or.inr (List.contains_iff_mem.mp hord)⟩
  | case6 => cases h
  | case7 => cases h

/-- A way that is broken says why, unless it leads to one that did. -/
theorem walk_broken {path waiting : List Nat} {i : Nat} {path' waiting' : List Nat}
    {error : Option CompileError}
    (hnames : ∀ (b : String) (j : Nat), byName[b]? = some j → j < classes.size)
    (hi : i < classes.size) (hdone : done.broken = [])
    (h : walk classes byName existing done path waiting i = (path', waiting', .broken error)) :
    error ≠ none := by
  fun_induction walk classes byName existing done path waiting i with
  | case1 => cases h
  | case2 path waiting i _ _ base hbase j hj ih => exact ih (hnames _ j hj) h
  | case3 => cases h
  | case4 =>
    cases h
    simp
  | case5 => cases h
  | case6 path waiting i _ _ hbroken => simp [hdone] at hbroken
  | case7 =>
    cases h
    simp [hi]

/-- While there are no errors, each class waits or is in order, and those visited are in order. -/
def Settles (n k : Nat) (done : Progress) : Prop :=
  done.errors = [] → done.broken = [] ∧ (∀ x < n, x ∈ done.waiting ∨ x ∈ done.ordered) ∧
    ∀ x < k, x ∈ done.ordered

theorem Settles.visit {k : Nat}
    (hnames : ∀ (b : String) (j : Nat), byName[b]? = some j → j < classes.size)
    (hk : k < classes.size) (h : Settles classes.size k done) :
    Settles classes.size (k + 1) (visit classes byName existing done k) := by
  intro herr
  unfold ClassOrder.visit at herr ⊢
  split at herr
  · next path waiting hwalk =>
    obtain ⟨hbroken, hall, hseen⟩ := h herr
    obtain ⟨-, hwait, hself⟩ := walk_sound hwalk
    refine ⟨hbroken, fun x hx => ?_, fun x hx => ?_⟩
    · rcases hall x hx with hx | hx
      · rcases hwait x hx with hx | hx
        · exact Or.inr (by simp [hx])
        · exact Or.inl hx
      · exact Or.inr (by simp [hx])
    · rcases Nat.lt_succ_iff_lt_or_eq.mp hx with hx | rfl
      · simp [hseen x hx]
      · simpa using hself
  · next path waiting error hwalk =>
    obtain ⟨herror, hdone⟩ := List.append_eq_nil_iff.mp herr
    have := walk_broken hnames hk (h hdone).1 hwalk
    cases error with
    | none => exact absurd rfl this
    | some e => cases herror

end ClassOrder

/-- Without errors every class is in order. -/
theorem mem_orderClasses {classes : List ClassDecl} {existing : Container}
    (h : (orderClasses classes existing).2 = []) {i : Nat} (hi : i < classes.length) :
    i ∈ (orderClasses classes existing).1 := by
  simp only [orderClasses, List.reverse_eq_nil_iff, List.mem_reverse] at h ⊢
  generalize hby : (classes.zip (List.range classes.length)).foldl
    (fun m x => m.insert x.1.name.text x.2) ({} : Std.TreeMap String Nat) = byName at h ⊢
  have hnames (b : String) (j : Nat) (hj : byName[b]? = some j) : j < classes.toArray.size := by
    rw [← hby] at hj
    rcases mem_of_foldl_insert (f := fun x : ClassDecl × Nat => x.1.name.text)
      (g := fun x => x.2) hj with hj | ⟨⟨c, _⟩, hx, -, rfl⟩
    · simp at hj
    · simpa using (List.of_mem_zip hx).2
  have hrun (k : Nat) (hk : k ≤ classes.length) : ClassOrder.Settles classes.toArray.size k
      ((List.range k).foldl (ClassOrder.visit classes.toArray byName existing)
        { waiting := List.range classes.length }) := by
    induction k with
    | zero => exact fun _ => ⟨rfl, fun x hx => Or.inl (by simpa using hx), by simp⟩
    | succ k ih =>
      rw [List.range_succ, List.foldl_append]
      have hlt : k < classes.toArray.size := by
        rw [List.size_toArray]
        exact hk
      exact ClassOrder.Settles.visit hnames hlt (ih (Nat.le_of_succ_le hk))
  exact (hrun classes.length (Nat.le_refl _) h).2.2 i hi

theorem mem_ordered {classes : List ClassDecl} {existing : Container}
    (h : (orderClasses classes existing).2 = []) {d : ClassDecl} :
    d ∈ (orderClasses classes existing).1.filterMap (classes.toArray[·]?) ↔ d ∈ classes := by
  constructor
  · intro hd
    obtain ⟨i, -, hi⟩ := List.mem_filterMap.mp hd
    exact List.mem_of_getElem? (by simpa using hi)
  · intro hd
    obtain ⟨i, hi, rfl⟩ := List.mem_iff_getElem.mp hd
    exact List.mem_filterMap.mpr ⟨i, mem_orderClasses h hi, by simp [hi]⟩

end Lss
