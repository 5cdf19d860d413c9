/-
# Views of operations

What the operands and attributes of an operation mean: the bounds and carried values of a loop, the
inputs, outputs and symbols of a generic operation, the offsets and sizes of a slice, the operands
of a convolution.  A view of an operation that does not have the parts asked for is stuck.
-/
import ConvNest.Program.Edit

namespace ConvNest.Program

/-- An index that is known, or the value that holds it. -/
inductive Index where
  | static (n : Int64)
  | dynamic (v : ValueId)
  deriving DecidableEq, Repr, Inhabited

namespace Index

/-- Whether the index is known. -/
def isStatic : Index → Bool
  | static _ => true
  | dynamic _ => false

/-- The text of an index; one that is not known is a question mark. -/
def text : Index → String
  | static n => Text.word n
  | dynamic _ => "?"

end Index

namespace Graph

/-- The word of an index constant; other values have none. -/
def constIndex? (g : Graph) (v : ValueId) : Except Fault (Option Int64) :=
  match g.ty v, g.definingOp v with
  | .index, some i =>
    if g.kind i = .constant then
      match (g.op i).attr with
      | .constant n _ => .ok (some n)
      | _ => .error (.stuck .kind)
    else .ok none
  | _, _ => .ok none

/-- The index that a value holds, known if the value is a constant. -/
def indexOf (g : Graph) (v : ValueId) : Except Fault Index := do
  match ← g.constIndex? v with
  | some n => return .static n
  | none => return .dynamic v

/-- The operand of an operation. -/
def operand (g : Graph) (i : OpId) (k : Nat) : Except Fault ValueId := itemAt (g.op i).operands k

/-- The result of an operation. -/
def result (g : Graph) (i : OpId) (k : Nat) : Except Fault ValueId := itemAt (g.op i).results k

/-- The body of an operation. -/
def bodyOf (g : Graph) (i : OpId) : Except Fault Block := do
  return g.block (← present (g.op i).body)

/-- The body of an operation, by name. -/
def bodyId (g : Graph) (i : OpId) : Except Fault BlockId := present (g.op i).body

/-- The operands of the terminator of the body of an operation. -/
def yielded (g : Graph) (i : OpId) : Except Fault (List ValueId) := do
  let b ← g.bodyId i
  return (g.op (← present (g.terminator b))).operands

/-! ## Loops -/

/-- The lower bound, upper bound and step of a loop. -/
structure Bounds where
  lower : ValueId
  upper : ValueId
  step : ValueId
  deriving DecidableEq, Repr, Inhabited

/-- The bounds of a loop. -/
def bounds (g : Graph) (i : OpId) : Except Fault Bounds := do
  return ⟨← g.operand i 0, ← g.operand i 1, ← g.operand i 2⟩

/-- The initial values of the values carried by a loop. -/
def inits (g : Graph) (i : OpId) : Except Fault (List ValueId) := itemsAfter (g.op i).operands 3

/-- The number of values carried by a loop; negative if it lacks bounds. -/
def carriedCount (g : Graph) (i : OpId) : Int := (g.op i).operands.length - 3

/-- The induction variable of a loop. -/
def inductionVar (g : Graph) (i : OpId) : Except Fault ValueId := do
  itemAt (← g.bodyOf i).args 0

/-- The carried values of a loop, as its body sees them. -/
def carried (g : Graph) (i : OpId) : Except Fault (List ValueId) := do
  itemsAfter (← g.bodyOf i).args 1

/-! ## Generic operations -/

/-- The structure of a generic operation. -/
def genericAttr (g : Graph) (i : OpId) : Except Fault GenericAttr :=
  match (g.op i).attr with
  | .generic a => .ok a
  | _ => .error (.stuck .kind)

/-- How many operands are inputs or outputs. -/
def shapedCount (g : Graph) (i : OpId) (a : GenericAttr) : Int :=
  a.inputs.toInt + (g.op i).results.length

/-- The inputs of a generic operation. -/
def inputs (g : Graph) (i : OpId) : Except Fault (List ValueId) := do
  firstItems (g.op i).operands (← g.genericAttr i).inputs.toInt

/-- The inputs and outputs of a generic operation, in the order of the indexing maps. -/
def shaped (g : Graph) (i : OpId) : Except Fault (List ValueId) := do
  firstItems (g.op i).operands (g.shapedCount i (← g.genericAttr i))

/-- The outputs of a generic operation. -/
def outputs (g : Graph) (i : OpId) : Except Fault (List ValueId) := do
  itemsAfter (← g.shaped i) (← g.genericAttr i).inputs.toInt

/-- The values of the symbols of a generic operation. -/
def symbols (g : Graph) (i : OpId) : Except Fault (List ValueId) := do
  itemsAfter (g.op i).operands (g.shapedCount i (← g.genericAttr i))

/-! ## Slices -/

/-- The static part of a slice. -/
def sliceAttr (g : Graph) (i : OpId) : Except Fault SliceAttr :=
  match (g.op i).attr with
  | .slice a => .ok a
  | _ => .error (.stuck .kind)

/-- Gives the marked entries of a slice their operands, in order; the operands left over follow. -/
def resolveMarks : List Int64 → List ValueId → Except Fault (List Index × List ValueId)
  | [], vs => .ok ([], vs)
  | n :: ns, vs =>
    if n = SliceAttr.dynamicMark then
      match vs with
      | [] => .error (.stuck .position)
      | v :: vs => do
        let (rest, left) ← resolveMarks ns vs
        return (.dynamic v :: rest, left)
    else do
      let (rest, left) ← resolveMarks ns vs
      return (.static n :: rest, left)

/-- Whether an operation extracts or inserts a slice. -/
def isSlice (g : Graph) (i : OpId) : Bool := g.kind i == .extractSlice || g.kind i == .insertSlice

/-- The tensor that a slice is inserted into; an extraction has none. -/
def sliceDest (g : Graph) (i : OpId) : Except Fault (Option ValueId) :=
  if g.kind i = .insertSlice then do return some (← g.operand i 1) else .ok none

/-- The offsets and sizes of a slice. -/
def offsetsAndSizes (g : Graph) (i : OpId) : Except Fault (List Index × List Index) := do
  let a ← g.sliceAttr i
  let (offsets, left) ←
    resolveMarks a.offsets ((g.op i).operands.drop (if g.kind i = .insertSlice then 2 else 1))
  let (sizes, _) ← resolveMarks a.sizes left
  return (offsets, sizes)

/-! ## Convolutions -/

/-- The strides and dilations of a convolution. -/
def convAttr (g : Graph) (i : OpId) : Except Fault (Pair × Pair) :=
  match (g.op i).attr with
  | .conv s d => .ok (s, d)
  | _ => .error (.stuck .kind)

/-! ## Functions -/

/-- The return of a function, if it has one. -/
def returnOf (g : Graph) (f : FuncId) : Except Fault (Option OpId) := do
  match g.terminator (← present (g.func f).body) with
  | some i => return if g.kind i = .funcReturn then some i else none
  | none => return none

/-- The types of the results of a function. -/
def resultTypes (g : Graph) (f : FuncId) : Except Fault (List Ty) := do
  match ← g.returnOf f with
  | some i => return (g.op i).operands.map g.ty
  | none => return []

end Graph

end ConvNest.Program
