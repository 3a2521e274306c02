import Lss.Container.Basic

/-!
Static calls. A body is compiled before it is known where the others will lie, so calls are first
kept by name; once every body is there, a name becomes the place where its function starts. Both
forms take the same room, so no place changes on the way.
-/
namespace Lss

namespace Container

/-- Where each function starts; of several with one name, the last. -/
def targets (c : Container) : Std.TreeMap String Nat :=
  (c.functions.zip c.functionOffsets).foldl (fun m (f, offset) => m.insert f.name offset) {}

end Container

namespace Code

/-- Calls by name become calls by place; fails with a name that has none. `acc` holds the
instructions before, in reverse. -/
def linkOnto (targets : Std.TreeMap String Nat) (acc : Code) : Code → Except String Code
  | [] => .ok acc.reverse
  | .unresolvedCall f argc :: code =>
    match targets[f]? with
    | some offset => linkOnto targets (.callFunction (UInt32.ofNat offset) argc :: acc) code
    | none => .error f
  | i :: code => linkOnto targets (i :: acc) code

def link (targets : Std.TreeMap String Nat) (code : Code) : Except String Code :=
  linkOnto targets [] code

end Code

namespace Container

def link (c : Container) : Except String Container := do
  let targets := c.targets
  let functions ← c.functions.mapM fun f => return { f with code := ← f.code.link targets }
  let classes ← c.classes.mapM fun k => do
    let methods ← k.methods.mapM fun m => return { m with code := ← m.code.link targets }
    return { k with methods }
  return { c with functions, classes }

end Container

end Lss
