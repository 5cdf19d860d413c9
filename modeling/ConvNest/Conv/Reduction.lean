/-
# Convolutions as reductions

A convolution is a reduction over six loops: batch, output channel, window, input channel, filter
row and filter column.  A window is a position of the output, counted row by row, so the output is
collapsed before the reduction and expanded again after it.
-/
import ConvNest.Conv.Operands
import ConvNest.Program.Build

namespace ConvNest.Conv

open Program Schedule ConvNest.Affine

/-- The axes of the output, with rows and columns taken together. -/
def windowGroups : List (List Int64) := [[0], [1], [2, 3]]

/-- The index of the input row or column that a window and a filter position meet at. -/
def inputIndex (window : Expr) (stride : Int64) (filterPos : Int64) : Expr :=
  .add (.mul window (.const stride)) (.dim filterPos)

/-- How the input, the filter and the output are indexed by the six loops. -/
def reductionMaps (p : Problem) : Except Fault (List Map) := do
  let row ← Expr.floordiv (.dim 2) p.output.width
  let column ← Expr.mod (.dim 2) p.output.width
  let input ← Map.make 6 0
    [.dim 0, .dim 3, inputIndex row p.strides.height 4, inputIndex column p.strides.width 5]
  let filter ← Map.make 6 0 [.dim 1, .dim 3, .dim 4, .dim 5]
  let output ← Map.make 6 0 [.dim 0, .dim 1, .dim 2]
  return [input, filter, output]

/-- The kinds of the six loops. -/
def reductionIterators : List Iterator :=
  [.parallel, .parallel, .parallel, .reduction, .reduction, .reduction]

/-- One step of the reduction: both factors are widened to the element type of the output. -/
def multiplyAdd (e : Element) (args : List ValueId) : Edit (List ValueId) := do
  let x ← Edit.widen (← itemAt args 0) e
  let w ← Edit.widen (← itemAt args 1) e
  let product ← Edit.mul x w
  return [← Edit.add product (← itemAt args 2)]

/-- Checks that the output has the extents of the problem. -/
def checkOutput (p : Problem) (ty : Ty) : Except Fault Unit := do
  let want ← Shape.make ty.elem [p.batch, p.outChannels, p.output.height, p.output.width]
  if ty.shape ≠ want then throw (.outputMismatch ty p.text)

/-- Replaces a convolution by a reduction, and answers the reduction. -/
def reformulate (p : Problem) (x : Operands) : Edit OpId := do
  let ty ← Edit.tyOf x.output
  checkOutput p ty
  Edit.setPoint (← Edit.pointBefore x.conv)
  let collapsed ← Edit.collapse x.output windowGroups
  let maps ← reductionMaps p
  let (reduction, _) ← Edit.generic [x.input, x.filter] [collapsed] [] maps reductionIterators
    fun args => do return (← multiplyAdd ty.elem args, ())
  let result ← (← Edit.graph).result reduction 0
  let expanded ← Edit.expand result windowGroups ty.shape
  Edit.replaceOp x.conv [expanded]
  return reduction

end ConvNest.Conv
