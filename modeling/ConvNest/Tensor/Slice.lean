/-
# Slices of tensors

A slice is the box of a tensor with given offsets and sizes.  Elements move through a double, so
integers beyond 53 bits are rounded.
-/
import ConvNest.Tensor.Basic

namespace ConvNest

namespace Tensor

/-- Whether a slice lies in the box of the dimensions; offsets and sizes have to be given for every
axis. -/
def sliceInside : List Int64 → List Int64 → List Int64 → Except Fault Bool
  | [], _, _ => .ok true
  | d :: ds, o :: os, z :: zs =>
    if o < 0 ∨ z ≤ 0 ∨ d < o + z then .ok false else sliceInside ds os zs
  | _ :: _, o :: _, [] => if o < 0 then .ok false else .error (.stuck .position)
  | _ :: _, [], _ => .error (.stuck .position)

/-- Checks that a slice lies inside of a tensor. -/
def checkSlice (t : Tensor) (offsets sizes : List Int64) : Except Fault Unit := do
  unless ← sliceInside t.dims offsets sizes do
    throw (.sliceOutOfBounds offsets sizes t.shape)

/-- The index of a slice moved by its offsets. -/
def shift (offsets index : List Int64) : List Int64 := List.zipWith (· + ·) offsets index

/-- The slice of a tensor. -/
def extractSlice (src : Tensor) (offsets sizes : List Int64) : Except Fault Tensor := do
  src.checkSlice offsets sizes
  let out ← zeros (← Shape.make src.elem sizes)
  out.shape.foldIndices (fun out k p => do
    out.setMoved k (← src.scalarAt (shift offsets p))) out

/-- The destination with the slice replaced by the source. -/
def insertSlice (src dest : Tensor) (offsets sizes : List Int64) : Except Fault Tensor := do
  dest.checkSlice offsets sizes
  (src.shape.checkDims sizes).mapError .insertMismatch
  src.shape.foldIndices (fun out k p => do
    let i ← out.flatIndex (shift offsets p)
    out.setMoved i (← src.flat k)) dest

end Tensor

end ConvNest
