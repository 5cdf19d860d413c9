/-
# Handles

A handle stands for a list of operations that a transformation works on.  While the program is
edited the lists are kept up to date: an operation that is replaced by the results of another one is
exchanged for it, and an erased operation is dropped.

A consumed handle stays known, and stands for nothing.
-/
import ConvNest.Program.Graph

namespace ConvNest.Program

/-- The name of a list of tracked operations. -/
structure Handle where
  id : Nat
  deriving DecidableEq, Repr, Inhabited

/-- What a handle stands for. -/
structure Tracked where
  name : String
  ops : List OpId
  consumed : Bool
  deriving Repr, Inhabited

/-- All handles; `next` was never given to one. -/
structure HandleTable where
  next : Nat
  entries : List (Handle × Tracked)
  deriving Repr, Inhabited

namespace HandleTable

/-- No handles. -/
def empty : HandleTable := ⟨0, []⟩

/-- A new handle of the given operations. -/
def track (t : HandleTable) (name : String) (ops : List OpId) : Handle × HandleTable :=
  (⟨t.next⟩, ⟨t.next + 1, t.entries ++ [(⟨t.next⟩, ⟨name, ops, false⟩)]⟩)

/-- What a handle stands for, if it is known. -/
def find? (t : HandleTable) (h : Handle) : Option Tracked := t.entries.lookup h

/-- Changes what every handle stands for. -/
def mapTracked (t : HandleTable) (f : Handle → Tracked → Tracked) : HandleTable :=
  { t with entries := t.entries.map fun p => (p.1, f p.1 p.2) }

/-- Marks a handle as consumed. -/
def consume (t : HandleTable) (h : Handle) : HandleTable :=
  t.mapTracked fun k x => if k = h then { x with ops := [], consumed := true } else x

/-- The operation whose results are exactly the given values, in order. -/
def definerOf (g : Graph) : List ValueId → Option OpId
  | [] => none
  | v :: vs =>
    match g.definingOp v with
    | some i => if (g.op i).results = v :: vs then some i else none
    | none => none

/-- Exchanges an operation for the one that defines its replacement, if one operation does. -/
def replaced (t : HandleTable) (g : Graph) (op : OpId) (values : List ValueId) : HandleTable :=
  match definerOf g values with
  | some new =>
    t.mapTracked fun _ x => { x with ops := x.ops.map fun i => if i = op then new else i }
  | none => t

/-- Drops an erased operation. -/
def erased (t : HandleTable) (op : OpId) : HandleTable :=
  t.mapTracked fun _ x => { x with ops := x.ops.filter (· ≠ op) }

/-- The handles of an earlier table, with every operation exchanged for its copy; operations without
a copy are dropped.  Handles that are not in the earlier table become unknown. -/
def restored (t saved : HandleTable) (copy : OpId → Option OpId) : HandleTable :=
  { (saved.mapTracked fun _ x => { x with ops := x.ops.filterMap copy }) with next := t.next }

end HandleTable

end ConvNest.Program
