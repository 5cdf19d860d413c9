/-
# Tensors

A tensor is a dense, row-major array of elements of one type, with static dimensions.  Float types
are held as doubles and all others as words, always rounded or wrapped to the element type.
-/
import ConvNest.Shape.Box
import ConvNest.Shape.Size
import ConvNest.Tensor.Scalar
import ConvNest.Text.Decimal

namespace ConvNest

/-- The elements of a tensor, in row-major order. -/
inductive Elements where
  | floats (xs : Array Float)
  | ints (xs : Array Int64)
  deriving Inhabited

namespace Elements

/-- The number of elements. -/
def size : Elements → Nat
  | floats xs => xs.size
  | ints xs => xs.size

/-- Whether the elements are held as doubles. -/
def isFloat : Elements → Bool
  | floats _ => true
  | ints _ => false

/-- The given number of zeros. -/
def zeros (e : Element) (n : Nat) : Elements :=
  if e.isFloat then floats (Array.replicate n 0) else ints (Array.replicate n 0)

/-- Doubles, each rounded to the element type. -/
def ofFloats (e : Element) (xs : List Float) : Elements :=
  if e.isFloat then floats (xs.map e.roundFloat).toArray
  else ints (xs.map fun x => e.wrapInt (Element.truncate x)).toArray

/-- The element at a position, as a scalar of the given type. -/
def get? (e : Element) (xs : Elements) (i : Int64) : Option Scalar :=
  if i < 0 then none
  else match xs with
    | floats xs => xs[i.toInt.toNat]?.map fun x => ⟨e, x, 0⟩
    | ints xs => xs[i.toInt.toNat]?.map fun n => ⟨e, 0, n⟩

/-- Stores a double at a position, rounded to the element type. -/
def setFloat (e : Element) (xs : Elements) (i : Nat) (x : Float) : Elements :=
  match xs with
  | floats xs => floats (xs.setIfInBounds i (e.roundFloat x))
  | ints xs => ints (xs.setIfInBounds i (e.wrapInt (Element.truncate x)))

/-- Stores a scalar at a position, rounded to the element type. -/
def setScalar (e : Element) (xs : Elements) (i : Nat) (s : Scalar) : Elements :=
  match xs with
  | floats xs => floats (xs.setIfInBounds i (e.roundFloat s.toFloat))
  | ints xs => ints (xs.setIfInBounds i (e.wrapInt s.toInt))

/-- Stores a scalar at a position by way of a double, rounded to the element type. -/
def setMoved (e : Element) (xs : Elements) (i : Nat) (s : Scalar) : Elements :=
  match xs with
  | floats xs => floats (xs.setIfInBounds i (e.roundFloat s.toFloat))
  | ints xs => ints (xs.setIfInBounds i (e.wrapInt s.toIntThroughDouble))

/-- Whether two arrays of elements are equal; a NaN differs from itself. -/
def same : Elements → Elements → Bool
  | floats xs, floats ys => xs == ys
  | ints xs, ints ys => xs == ys
  | floats xs, ints ys => xs.isEmpty && ys.isEmpty
  | ints xs, floats ys => xs.isEmpty && ys.isEmpty

end Elements

/-- A dense tensor. -/
structure Tensor where
  elem : Element
  dims : List Int64
  data : Elements
  deriving Inhabited

namespace Tensor

/-- The shape of a tensor, all of whose dimensions are known. -/
def shape (t : Tensor) : Shape := Shape.ofSizes t.elem t.dims

/-- The number of elements that the dimensions ask for. -/
def size (t : Tensor) : Int64 := Shape.product t.dims

/-- The greatest number of elements that can be held. -/
def capacity : Int64 := 35184372088832

/-- The number of elements of a static shape, if they can be held. -/
def room (s : Shape) : Except Fault Nat := do
  (s.checkStatic).mapError .zerosOfDynamic
  let n := Shape.product s.words
  if n < 0 ∨ capacity < n then throw (.stuck .length)
  return n.toInt.toNat

/-- The tensor of a static shape filled with zeros. -/
def zeros (s : Shape) : Except Fault Tensor := do
  return ⟨s.elem, s.words, .zeros s.elem (← room s)⟩

/-- The same tensor with a double stored at a position. -/
def setFlat (t : Tensor) (i : Int64) (x : Float) : Except Fault Tensor :=
  if i < 0 ∨ t.data.size ≤ i.toInt.toNat then .error (.stuck .position)
  else .ok { t with data := t.data.setFloat t.elem i.toInt.toNat x }

/-- The tensor whose element at each flat position is a rounded double. -/
def tabulate (s : Shape) (f : Nat → Except Fault Float) : Except Fault Tensor := do
  let t ← zeros s
  let store (data : Elements) (i : Nat) : Except Fault Elements := do
    return data.setFloat t.elem i (← f i)
  return { t with data := ← (List.range t.data.size).foldlM store t.data }

/-- The tensor with the given elements. -/
def ofFlat (e : Element) (dims : List Int64) (xs : List Float) : Except Fault Tensor := do
  let s ← Shape.make e dims
  if (← room s) ≠ xs.length then throw (.flatCount xs.length s)
  return ⟨e, s.words, .ofFloats e xs⟩

/-- The elements under another shape of the same size and element type. -/
def reshape (t : Tensor) (s : Shape) : Except Fault Tensor := do
  if (← s.size) ≠ t.size ∨ s.elem ≠ t.elem then throw (.reshapeMismatch t.shape s)
  return { t with dims := s.words }

/-- The row-major position of indices that lie in the box of the dimensions. -/
def position : List Int64 → List Int64 → Int64 → Option Int64
  | d :: ds, i :: is, acc => if i < 0 ∨ d ≤ i then none else position ds is (acc * d + i)
  | [], [], acc => some acc
  | _, _, _ => none

/-- The flat position of an index. -/
def flatIndex (t : Tensor) (indices : List Int64) : Except Fault Int64 :=
  if indices.length ≠ t.dims.length then .error (.indexCount indices.length t.shape)
  else match position t.dims indices 0 with
    | some i => .ok i
    | none => .error (.indexOutOfBounds indices t.shape)

/-- The element at a flat position. -/
def flat (t : Tensor) (i : Int64) : Except Fault Scalar :=
  match t.data.get? t.elem i with
  | some s => .ok s
  | none => .error (.stuck .position)

/-- The element at an index. -/
def scalarAt (t : Tensor) (indices : List Int64) : Except Fault Scalar := do
  t.flat (← t.flatIndex indices)

/-- The same tensor with a scalar stored at an index. -/
def setScalar (t : Tensor) (indices : List Int64) (s : Scalar) : Except Fault Tensor := do
  let i ← t.flatIndex indices
  if i < 0 ∨ t.data.size ≤ i.toInt.toNat then throw (.stuck .position)
  return { t with data := t.data.setScalar t.elem i.toInt.toNat s }

/-- The same tensor with a scalar stored at a flat position, by way of a double. -/
def setMoved (t : Tensor) (i : Int64) (s : Scalar) : Except Fault Tensor :=
  if i < 0 ∨ t.data.size ≤ i.toInt.toNat then .error (.stuck .position)
  else .ok { t with data := t.data.setMoved t.elem i.toInt.toNat s }

/-- All elements as doubles. -/
def toFloats (t : Tensor) : Except Fault (List Float) := do
  if t.size < 0 ∨ capacity < t.size then throw (.stuck .length)
  (Word.range t.size).mapM fun i => return (← t.flat i).toFloat

/-- The elements at all indices of the shape, in row-major order. -/
def scalars (t : Tensor) : Except Fault (List Scalar) := do
  let collect (xs : Array Scalar) (_ : Int64) (p : List Int64) : Except Fault (Array Scalar) := do
    return xs.push (← t.scalarAt p)
  return (← t.shape.foldIndices collect #[]).toList

/-- Whether two tensors have the same shape and the same elements. -/
def same (t u : Tensor) : Bool := t.elem == u.elem && t.dims == u.dims && t.data.same u.data

/-- The greater of two doubles; a NaN wins. -/
def maxFloat (x y : Float) : Float :=
  if x.isNaN then x else if y.isNaN then y else if x < y then y else x

/-- The largest absolute difference of two tensors of the same shape, and infinity for tensors of
different shapes. -/
def maxAbsDiff (t u : Tensor) : Except Fault Float :=
  if t.elem ≠ u.elem ∨ t.dims ≠ u.dims then .ok (1.0 / 0.0)
  else
    let step (acc : Float) (i : Int64) : Except Fault Float := do
      let x ← t.flat i
      let y ← u.flat i
      return maxFloat acc (x.toFloat - y.toFloat).abs
    (Word.range t.size).foldlM step 0.0

/-- How many elements are shown in a text. -/
def shown : Int64 := 16

/-- The text `(Float32)[2]{1, 2.5}`, with the first elements only. -/
def text (t : Tensor) : Except Fault String := do
  let n := min t.size shown
  if n < 0 then throw (.stuck .length)
  let xs ← (Word.range n).mapM fun i => return Text.general (← t.flat i).toFloat
  return t.shape.text ++ "\x7b" ++ Text.commas xs ++ (if n < t.size then ", ..." else "") ++ "\x7d"

end Tensor

end ConvNest
