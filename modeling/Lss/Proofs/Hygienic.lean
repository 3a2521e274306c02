import Lss.Proofs.DrawnUnit
import Lss.Proofs.Reached
import Lss.Proofs.Repeated
import Lss.Proofs.Resolution

/-!
# The element of a loop reads as the collection did at the head

A name is read through the frames from which it is looked up and those around them, and a loop over
a collection goes back to the frame around it for the names of the collection. Lowering the body
leaves those frames alone, whatever it declares, and the names that the loop itself makes cannot be
spelled. So wherever the element is read, the code of the collection is that of the head.
-/
namespace Lss

open Lower Scopes

/-! What names stand for. -/

namespace Scopes

variable {S T : Scopes} {k f g : Nat} {name other : String} {v : Variable}

/-- A name is looked up in a frame and those before it. -/
theorem resolveFrom_congr (name : String) (h : ∀ j ≤ f, S.frames[j]? = T.frames[j]?) :
    S.resolveFrom name f = T.resolveFrom name f := by
  induction f using Nat.strongRecOn with
  | ind f ih =>
    unfold resolveFrom
    rw [h f (Nat.le_refl f)]
    split
    · rfl
    · split
      · rfl
      · split
        · split
          · next hlt => exact ih _ hlt fun j hj => h j (Nat.le_trans hj (Nat.le_of_lt hlt))
          · rfl
        · rfl

/-- The names of a collection are looked up from further out than its element. -/
theorem At.outer_lt (hS : S.At k) {collection : Expr} {index : UInt16} {outer : Nat}
    (h : S.resolveFrom name f = some (.element collection index outer)) : outer < f := by
  induction f using Nat.strongRecOn with
  | ind f ih =>
    unfold resolveFrom at h
    split at h
    · cases h
    next frame hframe =>
    split at h
    · next hbound =>
      cases h
      exact (hS.sited f frame hframe).element name collection index outer hbound
    · split at h
      · split at h
        · next hlt => exact Nat.lt_trans (ih _ hlt h) hlt
        · cases h
      · cases h

/-- A binding of another name is not seen. -/
theorem resolveFrom_insert (hS : S.At k) (h : name ≠ other) (v : Variable) (f : Nat) :
    (S.insert other v).resolveFrom name f = S.resolveFrom name f := by
  induction f using Nat.strongRecOn with
  | ind f ih =>
    have hframes := frames_insert hS.current other v f
    unfold resolveFrom
    rw [hframes]
    cases S.frames[f]? with
    | none => rfl
    | some frame =>
      have hsame : ((if k = f then { frame with bindings := frame.bindings.insert other v }
          else frame : Frame).bindings[name]?) = frame.bindings[name]? := by
        split
        · simp [Std.TreeMap.getElem?_insert, Ne.symm h]
        · rfl
      have hparent : (if k = f then { frame with bindings := frame.bindings.insert other v }
          else frame : Frame).parent = frame.parent := by
        split <;> rfl
      simp only [Option.map_some, hsame, hparent]
      split
      · rfl
      · split
        · split
          · next hlt => exact ih _ hlt
          · rfl
        · rfl

/-- A binding in the current frame is found first. -/
theorem resolve_insert (hS : S.At k) (name : String) (v : Variable) :
    (S.insert name v).resolve name = some v := by
  obtain ⟨frame, hframe⟩ := Option.isSome_iff_exists.mp (isSome_getElem? S.frames k |>.mpr hS.bound)
  rw [resolve, current_insert, hS.current, Option.bind_some, resolveFrom,
    frames_insert hS.current, hframe]
  simp

/-- A new frame binds nothing. -/
theorem resolveFrom_enter (hS : S.At k) (name : String) :
    S.enter.resolveFrom name S.frames.size = S.resolveFrom name k := by
  have houter : S.enter.resolveFrom name S.frames.size = S.enter.resolveFrom name k := by
    rw [resolveFrom, frames_enter_self, hS.current]
    simp [hS.bound]
  rw [houter]
  exact resolveFrom_congr name fun j hj => frames_enter S (Nat.lt_of_le_of_lt hj hS.bound)

theorem resolveFrom_declareHidden (hS : S.At k) {purpose : String}
    (h : name.toList.head? ≠ some '$') (f : Nat) :
    (S.declareHidden purpose).2.resolveFrom name f = S.resolveFrom name f := by
  have hcount : Leads k S { S with slotCount := S.slotCount + 1, hidden := S.hidden + 1 } :=
    .count hS (Nat.le_succ _)
  refine (resolveFrom_insert hcount.here ?_ _ f).trans (resolveFrom_congr name fun _ _ => rfl)
  rintro rfl
  exact h (by simp)

/-- In the head of a loop, names that can be spelled stand for what they stand for outside. -/
theorem Heads.resolveFrom_inside (hS : S.At k) {element : Token} {collection : Expr}
    {index last : UInt16} {frame : Nat} {inside inner : Scopes}
    (h : S.Heads element collection index last frame inside inner)
    (hname : name.toList.head? ≠ some '$') :
    inside.resolveFrom name S.frames.size = S.resolveFrom name k := by
  have hfirst : Leads S.frames.size S.enter (S.enter.declareHidden "index").2 :=
    .declareHidden hS.enter "index"
  rw [h.inside_eq, resolveFrom_declareHidden hfirst.here hname,
    resolveFrom_declareHidden hS.enter hname, resolveFrom_enter hS]

end Scopes

/-! What reading a name gives. -/

section

variable {env : Env} {S T : Scopes} {i j f g : Nat} {read read' : Token → Lower Code}

theorem lowerVariable_congr {t : Token} (h : t.kind = .identifier → read t = read' t) :
    lowerVariable env read t = lowerVariable env read' t := by
  unfold lowerVariable
  split
  · rfl
  · next hk => exact h hk
  · rfl

mutual

/-- The code of an expression depends on how its own names are read, and on no others. -/
theorem lowerExpr_congr : (e : Expr) →
    e.Names (fun t => t.kind = .identifier → read t = read' t) →
    lowerExpr env read e = lowerExpr env read' e
  | .literal t, _ | .construct _ none _, _ | .pending _, _ => by simp only [lowerExpr]
  | .variable t, h => by
    simp only [lowerExpr]
    exact lowerVariable_congr h
  | .grouping e, h => by
    simp only [lowerExpr]
    exact lowerExpr_congr e h
  | .unary op e leads, h => by
    simp only [lowerExpr]
    rw [lowerExpr_congr e h]
  | .binary left op right, h => by
    simp only [Expr.Names] at h
    simp only [lowerExpr]
    rw [lowerExpr_congr left h.1, lowerExpr_congr right h.2]
  | .index a i span, h => by
    simp only [Expr.Names] at h
    simp only [lowerExpr]
    rw [lowerExpr_congr a h.1, lowerExpr_congr i h.2]
  | .array es span, h => by
    simp only [lowerExpr]
    rw [lowerAll_congr es [] h]
  | .call target arguments span, h => by
    simp only [Expr.Names] at h
    have hargs := lowerAll_congr arguments [] h.2
    simp only [lowerExpr]
    split
    · rfl
    split
    · rw [hargs]
    · next left op right =>
      have htarget := h.1
      simp only [Expr.Names] at htarget
      rw [hargs, lowerExpr_congr left htarget.1, lowerExpr_congr right htarget.2]
    · rfl
  | .construct type (some arguments) span, h => by
    simp only [lowerExpr]
    rw [lowerAll_congr arguments [] h]
termination_by e => sizeOf e
decreasing_by all_goals (subst_vars; simp +arith)

theorem lowerAll_congr : (es : List Expr) → (acc : Code) →
    Expr.AllNames (fun t => t.kind = .identifier → read t = read' t) es →
    lowerAll env read acc es = lowerAll env read' acc es
  | [], acc, _ => by simp only [lowerAll]
  | e :: es, acc, h => by
    simp only [lowerAll]
    rw [lowerExpr_congr e h.1]
    simp only [lowerAll_congr es _ h.2]
termination_by es => sizeOf es
decreasing_by all_goals simp +arith

end

/-- A name that stands for the same thing reads the same, where frames further out are the same. -/
theorem readFrom_congr {t : Token} (hS : S.At i) (hT : T.At j)
    (hresolve : S.resolveFrom t.text f = T.resolveFrom t.text g)
    (hframes : ∀ n, n < f → n < g → S.frames[n]? = T.frames[n]?) :
    readFrom env S f t = readFrom env T g t := by
  induction f using Nat.strongRecOn generalizing g t with
  | ind f ih =>
    have hg : readFrom env T g t = _ := readFrom.eq_def env T g t
    rw [readFrom.eq_def, hg, hresolve]
    split
    · rfl
    · rfl
    · next collection index outer helement =>
      have hltg : outer < g := hT.outer_lt helement
      have hltf : outer < f := hS.outer_lt (hresolve.trans helement)
      have hsame : ∀ n ≤ outer, S.frames[n]? = T.frames[n]? := fun n hn =>
        hframes n (Nat.lt_of_le_of_lt hn hltf) (Nat.lt_of_le_of_lt hn hltg)
      have hread : (fun t => readFrom env S outer t) = fun t => readFrom env T outer t := by
        funext t
        exact ih outer hltf (resolveFrom_congr t.text hsame) fun n hn _ => hsame n (Nat.le_of_lt hn)
      rw [dif_pos hltf, dif_pos hltg, hread]

/-- To read the element of a loop is to read its collection from outside the loop. -/
theorem readFrom_element {t : Token} {collection : Expr} {index : UInt16} {outer : Nat}
    (hT : T.At i) (h : T.resolveFrom t.text f = some (.element collection index outer)) :
    readFrom env T f t = do
      let code ← lowerExpr env (fun t => readFrom env T outer t) collection
      return code ++ [Instruction.getVariable (.ofLocal index), .getElement] := by
  rw [readFrom.eq_def, h]
  dsimp only
  rw [dif_pos (hT.outer_lt h)]

/-- From every place in the body of a loop, its collection has the code that it has in the head. -/
theorem lowerExpr_collection {k : Nat} {element : Token} {collection : Expr}
    {index last : UInt16} {frame : Nat} {inside inner : Scopes} (hS : S.At k)
    (h : S.Heads element collection index last frame inside inner)
    (hT : Within S.frames.size inner i T) (hnames : collection.Names Token.Proper) :
    lowerExpr env (fun t => readFrom env T frame t) collection = lower env inside collection := by
  obtain ⟨rfl, hinside, hinner⟩ := h.leads hS
  have hsize : S.frames.size < S.enter.frames.size := by simp [Scopes.enter]
  have hbelow : ∀ n < S.frames.size, T.frames[n]? = S.frames[n]? ∧
      inside.frames[n]? = S.frames[n]? := by
    intro n hn
    have hopen : inside.frames[n]? = S.frames[n]? :=
      (hinside.others n (Nat.lt_trans hn hsize) (Nat.ne_of_lt hn)).trans (frames_enter S hn)
    refine ⟨?_, hopen⟩
    rw [hT.below n hn, hinner.others n ?_ (Nat.ne_of_lt hn), hopen]
    exact Nat.lt_of_lt_of_le (Nat.lt_trans hn hsize) hinside.size
  refine lowerExpr_congr collection (Expr.Names.imp (fun t ht hk => ?_) _ hnames)
  have hname : t.text.toList.head? ≠ some '$' := (ht hk).head_ne_dollar rfl
  unfold readName
  rw [hinside.here.current]
  refine readFrom_congr hT.here hinside.here ?_ fun n hn _ => ?_
  · rw [h.resolveFrom_inside hS hname]
    exact resolveFrom_congr t.text fun n hn => (hbelow n (Nat.lt_of_le_of_lt hn hS.bound)).1
  · have hn : n < S.frames.size := Nat.lt_trans hn hS.bound
    exact (hbelow n hn).1.trans (hbelow n hn).2.symm

end

/-! Loops in bodies. -/

section

variable {env : Env} {P : Token → Prop} {S T U : Scopes} {p q r : Pool} {s t : Stmt}

theorem Stmt.Comes.names {ss : List Stmt} (h : Comes env S p ss T q t) :
    Stmt.AllNames P ss → t.Names P := by
  induction h with
  | head => exact fun hss => hss.1
  | tail _ _ ih => exact fun hss => ih hss.2

theorem Stmt.Enters.names (h : Enters env S p s T q t) (hs : s.Names P) : t.Names P := by
  cases h with
  | block h => exact h.names hs
  | @always body arm span =>
    cases arm with
    | none => exact hs
    | some arm => exact hs.1
  | @if_ c body arm span =>
    cases arm with
    | none => exact hs.2
    | some arm => exact hs.2.1
  | else_ => exact hs.2.2
  | while_ | doWhile | foreach => exact hs.2

theorem Stmt.Reaches.names (h : Reaches env S p s T q t) : s.Names P → t.Names P := by
  induction h with
  | here => exact id
  | into hfirst _ ih => exact fun hs => ih (hfirst.names hs)

/-- A loop over a collection whose head has code for the collection. Wherever lowering the body then
looks up a name, from whatever frame, and finds the element of this loop, it reads the name with the
code of the head, the counter of the loop and an access, and adds nothing to the tables. Scopes are
what a name is read in; reading changes none. -/
def Stmt.ReadsElement (env : Env) (S : Scopes) (p : Pool) (element : Token) (collection : Expr)
    (body : Stmt) : Prop :=
  ∃ index last frame inside inner items q more out back U r,
    S.Heads element collection index last frame inside inner ∧
    (lower env inside collection).run.run p = (.ok items, q) ∧
    (lowerStmt env S (.foreach element collection body)).run.run p =
      (.ok (foreachCode (.ofLocal index) (.ofLocal last) items more out back, U), r) ∧
    inner.resolve element.text = some (.element collection index frame) ∧
    ∀ V t s T v, Stmt.Reaches env inner q body V t s → Stmt.Evaluates env V t s T v →
      ∀ (name : Token) (from_ : Nat),
        T.resolveFrom name.text from_ = some (.element collection index frame) →
        ∀ w : Pool, v.Interns w → ∃ w' : Pool,
          (readFrom env T from_ name).run.run w =
            (.ok (items ++ [Instruction.getVariable (.ofLocal index), .getElement]), w') ∧
          w.SameTables w'

/-- The counter of a loop has a number that fits an operand. -/
theorem Scopes.Heads.index_lt {k : Nat} {element : Token} {collection : Expr} {index last : UInt16}
    {frame : Nat} {inside inner : Scopes} (hS : S.At k)
    (h : S.Heads element collection index last frame inside inner)
    (hmax : inner.slotCount ≤ Draft.maxLocals) : index.toNat < 0x8000 := by
  obtain ⟨-, -, hinner⟩ := h.leads hS
  have hcount : inside.slotCount = S.slotCount + 2 := by
    rw [h.inside_eq]
    simp [declareHidden]
  have hindex : index.toNat ≤ S.slotCount := by
    rw [h.index_eq]
    exact toNat_nextSlot_le S.enter
  have := hinner.slots
  unfold Draft.maxLocals at hmax
  omega

theorem Stmt.Succeeds.readsElement {k : Nat} {element : Token} {collection : Expr} {body : Stmt}
    (h : Succeeds env k Draft.maxLocals S p (.foreach element collection body))
    (hnames : collection.Names Token.Proper) :
    Stmt.ReadsElement env S p element collection body := by
  have hS := h.here
  obtain ⟨code, U, r, hrun, hmax⟩ := h.runs
  obtain ⟨index, last, frame, inside, inner, items, q, more, V, out, back, hheads, hitems, hbody,
    rfl, rfl⟩ := run_foreach_eq_ok hrun
  obtain ⟨hframe, hinside, hinner⟩ := hheads.leads hS
  have hmore := lowerStmt_leads hinner.here hbody
  have hindex : index.toNat < 0x8000 := hheads.index_lt hS (Nat.le_trans hmore.slots hmax)
  have hslot := Slot.index_ofLocal hindex
  refine ⟨index, last, frame, inside, inner, items, q, _, out, back, _, r, hheads, hitems, hrun,
    ?_, ?_⟩
  · have hbind := hheads.bind_eq
    unfold Scopes.bind at hbind
    split at hbind
    · cases hbind
    · cases hbind
      rw [resolve_insert hinside.here, hslot]
  · intro V t s T v hreaches hevaluates name from_ hresolve w hw
    have hsucceeds : body.Succeeds env S.frames.size Draft.maxLocals inner q :=
      ⟨hinner.here, more, _, r, hbody, hmax⟩
    obtain ⟨m, hs, hwithin, hpool⟩ := hreaches.succeeds hsucceeds
    obtain ⟨l, hwithin', hpool'⟩ := hevaluates.within hs
    have hT := hwithin.trans hwithin'
    obtain ⟨w', hagain, hsame⟩ := (lower_repeats inside collection).again p items q hitems w
      ((hpool.trans hpool').trans hw)
    refine ⟨w', ?_, hsame⟩
    rw [readFrom_element hT.here hresolve, lowerExpr_collection hS hheads hT hnames]
    exact run_bind_eq_ok.mpr ⟨items, w', hagain, rfl⟩

/-- Elements of loops read as their collections do at the head, in every subroutine that is parsed
from a text, also one with faults, and compiles. -/
theorem SourceUnit.foreach_readsElement {source : String} {file : Option String} {s : Subroutine}
    (hs : s ∈ (ofSource source file).1.subroutines) {code : Code}
    (hrun : (lowerSubroutine env s).run.run p = (.ok code, q)) {element : Token}
    {collection : Expr} {body : Stmt}
    (hloop : s.Reaches env p S r (.foreach element collection body)) :
    Stmt.ReadsElement env S r element collection body := by
  obtain ⟨k, hsucceeds⟩ := hloop.succeeds hrun
  obtain ⟨d, U, r', u, -, hcomes, hreaches⟩ := hloop
  have hnames := hreaches.names (hcomes.names (ofSource_names source file s hs))
  exact hsucceeds.readsElement hnames.1

end

/-- A loop that declares the name of its collection again, and an inner one that takes over the name
of the element and goes over the outer element. -/
def SourceUnit.nested : String :=
  "function f(c) \x7b foreach (x in c) \x7b var c = 1; foreach (x in x) return x + c; \x7d \x7d"

def Env.undeclared : Env where
  globals := {}
  functions := {}
  classes := {}
  lineNumbers := false

theorem SourceUnit.foreach_readsElement_nested :
    ∃ s ∈ (ofSource nested none).1.subroutines, ∃ d element collection body,
      Draft.start s.name.text s.parameters false = .ok d ∧
      s.body.statements.head? = some (.foreach element collection body) ∧
      Stmt.ReadsElement .undeclared d.scopes ⟨{}, {}, []⟩ element collection body := by
  have hany : (ofSource nested none).1.subroutines.any fun s =>
      s.body.statements.head?.any (fun | .foreach _ _ _ => true | _ => false) &&
        ((lowerSubroutine .undeclared s).run.run ⟨{}, {}, []⟩).1.toOption.isSome := by
    decide +kernel
  obtain ⟨s, hs, hany⟩ := List.any_eq_true.mp hany
  obtain ⟨hhead, hok⟩ := Bool.and_eq_true_iff.mp hany
  obtain ⟨first, hfirst, hforeach⟩ := (Option.any_eq_true _ _).mp hhead
  split at hforeach
  · next element collection body =>
    rcases hrun : (lowerSubroutine .undeclared s).run.run ⟨{}, {}, []⟩ with ⟨e | code, q⟩
    · rw [hrun] at hok
      cases hok
    · obtain ⟨ss, hss⟩ := List.head?_eq_some_iff.mp hfirst
      obtain ⟨d, r, hstart, -⟩ := run_bind_eq_ok.mp hrun
      obtain ⟨hd, -⟩ := run_ofExcept_eq_ok.mp hstart
      refine ⟨s, hs, d, element, collection, body, hd, hfirst, foreach_readsElement hs hrun ?_⟩
      exact ⟨d, _, _, _, hd, by rw [hss]; exact .head, .here⟩
  · cases hforeach

end Lss
