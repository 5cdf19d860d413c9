/-
# Using handles

What a handle stands for, and its end: a handle that is not known, or consumed already, is a
failure.
-/
import ConvNest.Attempt

namespace ConvNest.Transform

open Program

/-- What a handle stands for. -/
def lookup (t : HandleTable) (h : Handle) : Except Failure Tracked :=
  match t.find? h with
  | none => .error .unknownHandle
  | some x => if x.consumed then .error (.consumedHandle x.name) else .ok x

/-- The operations of a handle. -/
def opsOf (t : HandleTable) (h : Handle) : Except Failure (List OpId) :=
  (lookup t h).map (·.ops)

/-- The name of a handle, empty if it is not known. -/
def nameOf (t : HandleTable) (h : Handle) : String :=
  match t.find? h with
  | some x => x.name
  | none => ""

/-- A new handle of operations. -/
def track (name : String) (ops : List OpId) : Edit Handle := do
  let e ← get
  let (h, t) := e.handles.track name ops
  set { e with handles := t }
  return h

/-- Ends a handle. -/
def consume (h : Handle) : Edit (Except Failure Unit) := do
  match lookup (← get).handles h with
  | .error f => return .error f
  | .ok _ =>
    modify fun e => { e with handles := e.handles.consume h }
    return .ok ()

/-- A handle of all operations of a kind in a function. -/
def matchKind (f : FuncId) (k : Kind) : Edit Handle := do
  track k.name (← Edit.opsOfKind f k)

end ConvNest.Transform
