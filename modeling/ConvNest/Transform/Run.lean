/-
# Running transformations

A transformation is run on each operation of a handle.  If it fails on one in a silenceable way,
that one is skipped.  If it fails in any other way, the function and the handles are put back to
what they were before this target, and the run ends.

A run that succeeds consumes the handle, and gives a new handle for each result of the
transformation.
-/
import ConvNest.Transform.Handles

namespace ConvNest.Transform

open Program

/-- A change of one operation. -/
structure Transformation where
  name : String
  /-- The number of operations that it answers. -/
  results : Nat
  apply : OpId → Attempt (List OpId)

/-- The outcome of a run: the failures that were skipped, and the new handles. -/
structure Outcome where
  skipped : List Failure
  result : Except Failure (List Handle)

namespace Transformation

/-- Applies a transformation, and checks the number of operations that it answers. -/
def applyChecked (t : Transformation) (target : OpId) : Attempt (List OpId) := do
  let ops ← t.apply target
  if ops.length ≠ t.results then throw (.resultCount ops.length t.results)
  return ops

/-- What came of one target. -/
inductive Step where
  | done (ops : List OpId)
  | skipped (why : Failure)
  | failed (why : Failure)

/-- Puts back a function and the handles. -/
def restore (f : FuncId) (snapshot : FuncId) (saved : HandleTable) (copy : Mapping) :
    Edit Unit := do
  Edit.restoreFunc f snapshot
  modify fun e => { e with handles := e.handles.restored saved copy.lookupOp }

/-- Applies a transformation to one target, and undoes a failure that cannot be skipped. -/
def applyTo (t : Transformation) (f : FuncId) (target : OpId) : Edit Step := do
  let (snapshot, copy) ← Edit.cloneFunc f
  let saved := (← get).handles
  match ← (t.applyChecked target).run with
  | .ok ops => return .done ops
  | .error why =>
    if why.isSilenceable then return .skipped why
    restore f snapshot saved copy
    return .failed (.undone t.name ((← Edit.graph).kind target) why)

/-- Applies a transformation to targets, one after the other; erased ones are left out.  Answers
what was skipped and the operations of each target. -/
def applyAll (t : Transformation) (f : FuncId) :
    List OpId → Edit (List Failure × Except Failure (List (List OpId)))
  | [] => return ([], .ok [])
  | target :: rest => do
    if (← Edit.op target).erased then applyAll t f rest
    else match ← t.applyTo f target with
      | .done ops =>
        let (skipped, result) ← applyAll t f rest
        return (skipped, result.map (ops :: ·))
      | .skipped why =>
        let (skipped, result) ← applyAll t f rest
        return (why :: skipped, result)
      | .failed why => return ([], .error why)

/-- The operations that are the `k`-th results of their targets. -/
def column (rows : List (List OpId)) (k : Nat) : List OpId := rows.filterMap (·[k]?)

/-- New handles, one for each result of a transformation. -/
def trackResults (t : Transformation) (rows : List (List OpId)) : Edit (List Handle) :=
  (List.range t.results).mapM fun k => track s!"{t.name}#{Text.count k}" (column rows k)

/-- Runs a transformation on the operations of a handle. -/
def run (t : Transformation) (f : FuncId) (h : Handle) : Edit Outcome := do
  match opsOf (← get).handles h with
  | .error why => return ⟨[], .error why⟩
  | .ok targets =>
    let (skipped, result) ← t.applyAll f targets
    match result with
    | .error why => return ⟨skipped, .error why⟩
    | .ok rows =>
      match ← consume h with
      | .error why => return ⟨skipped, .error why⟩
      | .ok () => return ⟨skipped, .ok (← t.trackResults rows)⟩

end Transformation

end ConvNest.Transform
