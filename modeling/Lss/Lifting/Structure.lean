import Lss.Lifting.Step

/-!
Statements of a body. A stretch of code is read from left to right: where a loop starts and the
stack is empty, the widest loop that closes inside the stretch is read; a branch on a false
condition opens an `if`, with an `else` where the guarded part ends in a branch forward; any other
instruction is a step of the stack. Branches of any other shape are refused.
-/
namespace Lss

structure Body where
  library : Library
  names : SlotNames
  code : Array Instruction
  /-- Where each instruction starts, and the end, in bytes. -/
  offsets : Array Nat
  /-- The instruction that starts at a byte. -/
  places : Std.TreeMap Nat Nat
  /-- Branches that lead back to an instruction, latest first. -/
  backEdges : Std.TreeMap Nat (List Nat)

namespace Body

def target (b : Body) (i : Nat) : Except DecompileError Nat :=
  match b.code[i]? with
  | none => .error (.invalidTarget i)
  | some instruction =>
    match instruction.distance? with
    | none => .error (.unexpected instruction i)
    | some d =>
      let landing := (b.offsets[i + 1]?.getD 0 : Int) + d.toInt
      if landing < 0 then .error (.invalidTarget i)
      else
        match b.places[landing.toNat]? with
        | some place => .ok place
        | none => .error (.invalidTarget i)

/-- Notes the branch at `i` if it leads back, to itself at most. -/
def noteBack (b : Body) (i : Nat) (instruction : Instruction) : Except DecompileError Body :=
  match instruction with
  | .branch .always _ | .branch .ifTrue _ =>
    match b.target i with
    | .error e => .error e
    | .ok t =>
      if t ≤ i then
        .ok { b with backEdges := b.backEdges.insert t (i :: b.backEdges.getD t []) }
      else .ok b
  | _ => .ok b

def noteAll (b : Body) (i : Nat) : Code → Except DecompileError Body
  | [] => .ok b
  | instruction :: code =>
    match b.noteBack i instruction with
    | .error e => .error e
    | .ok b => noteAll b (i + 1) code

def ofCode (library : Library) (names : SlotNames) (code : Code) : Except DecompileError Body :=
  let (starts, stop) := Container.starts 0 (code.map fun i => [i])
  let offsets := (starts ++ [stop]).toArray
  let places := ((starts ++ [stop]).zip (List.range (code.length + 1))).foldl
    (fun m (offset, i) => m.insert offset i) {}
  noteAll { library, names, code := code.toArray, offsets, places, backEdges := {} } 0 code

/-- The last branch back to `head` before `stop`. -/
def loopEnd? (b : Body) (head stop : Nat) : Option Nat :=
  (b.backEdges.getD head []).find? fun j => head ≤ j && j < stop

/-- The first branch after `head` that leaves the loop which the branch at `back` closes. -/
def loopExit? (b : Body) (head back : Nat) : Option Nat :=
  let leaves (k : Nat) : Bool :=
    match b.code[k]? with
    | some (.branch .ifFalse _) =>
      match b.target k with
      | .ok t => t == back + 1
      | .error _ => false
    | _ => false
  (List.range' head (back - head)).find? leaves

def settled (stop : Nat) (r : List Stmt × OperandStack) : Except DecompileError (List Stmt) :=
  if r.2.isEmpty then .ok r.1 else .error (.danglingValue stop)

/-- The arm of an `else`: a lone `if` stays bare, so that it prints as `else if`. -/
def elseArm : List Stmt → Stmt
  | [.if_ c body otherwise span] => .if_ c body otherwise span
  | statements => .ofList statements

theorem pred_lt_of_le {i t stop : Nat} (h : i < t ∧ t ≤ stop) : t - 1 < stop := by omega

/-- What a branch on a false condition at `i` opens in a stretch that ends at `stop`. -/
inductive Opening (i stop : Nat) where
  /-- A part that ends where the branch leads to. -/
  | plain (target : Nat) (lt : i < target) (le : target ≤ stop)
  /-- A part that ends in a branch at `last`, over another part up to `join`. -/
  | withElse (last join : Nat) (lt : i < last) (le : last < stop)

def opening (b : Body) (i stop : Nat) : Except DecompileError (Opening i stop) :=
  match b.target i with
  | .error e => .error e
  | .ok t =>
    if h : i < t ∧ t ≤ stop then
      if hlast : i < t - 1 then
        match b.code[t - 1]? with
        | some (.branch .always d) =>
          if 0 < d then
            match b.target (t - 1) with
            | .error e => .error e
            | .ok join => .ok (.withElse (t - 1) join hlast (pred_lt_of_le h))
          else .ok (.plain t h.1 h.2)
        | _ => .ok (.plain t h.1 h.2)
      else .ok (.plain t h.1 h.2)
    else .error (.unstructured i)

def condition (i : Nat) : OperandStack → Except DecompileError Expr
  | [] => .error (.stackUnderflow i)
  | v :: below =>
    match Stacked.valueOf i v with
    | .error e => .error e
    | .ok c => if below.isEmpty then .ok c else .error (.danglingValue i)

/-- Reads the stretch from `i` to before `stop`, after the statements in `acc`, in reverse. Gives
its statements and the values that are left. -/
def region (b : Body) (stack : OperandStack) (acc : List Stmt) (i stop : Nat) :
    Except DecompileError (List Stmt × OperandStack) :=
  if _hi : i < stop then
    match b.code[i]?, (if stack.isEmpty then b.loopEnd? i stop else none) with
    | none, _ => .error (.stackUnderflow i)
    | some _, some back =>
      if _hback : i ≤ back ∧ back < stop then
        match b.code[back]? with
        | some (.branch .ifTrue _) =>
          match region b [] [] i back with
          | .error e => .error e
          | .ok (body, [value]) =>
            match Stacked.valueOf back value with
            | .error e => .error e
            | .ok c => region b stack (.doWhile (.ofList body) c :: acc) (back + 1) stop
          | .ok _ => .error (.unstructured back)
        | _ =>
          match b.loopExit? i back with
          | none => .error (.unstructured back)
          | some exit =>
            if _hexit : i ≤ exit ∧ exit < back then
              match region b [] [] i exit with
              | .error e => .error e
              | .ok ([], [value]) =>
                match Stacked.valueOf exit value with
                | .error e => .error e
                | .ok c =>
                  match (region b [] [] (exit + 1) back).bind (settled back) with
                  | .error e => .error e
                  | .ok body => region b stack (.while_ c (.ofList body) :: acc) (back + 1) stop
              | .ok _ => .error (.unstructured exit)
            else .error (.unstructured back)
      else .error (.unstructured back)
    | some (.branch .ifFalse _), none =>
      match b.opening i stop with
      | .error e => .error e
      | .ok shape =>
        match condition i stack with
        | .error e => .error e
        | .ok c =>
          match shape with
          | .plain t _ _ =>
            match (region b [] [] (i + 1) t).bind (settled t) with
            | .error e => .error e
            | .ok body =>
              region b [] (.if_ (some c) (.ofList body) none .synthetic :: acc) t stop
          | .withElse last join _ _ =>
            if _hjoin : last < join ∧ join ≤ stop then
              match (region b [] [] (i + 1) last).bind (settled last) with
              | .error e => .error e
              | .ok body =>
                match (region b [] [] (last + 1) join).bind (settled join) with
                | .error e => .error e
                | .ok arm =>
                  let arm : Stmt := .if_ none (elseArm arm) none .synthetic
                  region b [] (.if_ (some c) (.ofList body) (some arm) .synthetic :: acc) join stop
            else .error (.unstructured last)
    | some (.branch .always d), none =>
      -- what an empty `else` leaves
      if d = 0 then region b stack acc (i + 1) stop else .error (.unstructured i)
    | some (.branch .ifTrue _), none => .error (.unstructured i)
    | some instruction, none =>
      match (step b.library b.names instruction i).run.run stack with
      | (.error e, _) => .error e
      | (.ok none, stack) => region b stack acc (i + 1) stop
      | (.ok (some s), stack) => region b stack (s :: acc) (i + 1) stop
  else .ok (acc.reverse, stack)
termination_by stop - i

def statements (b : Body) : Except DecompileError (List Stmt) :=
  (b.region [] [] 0 b.code.size).bind (settled b.code.size)

end Body

end Lss
