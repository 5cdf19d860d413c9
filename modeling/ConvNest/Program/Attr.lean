/-
# Attributes of operations

The parameters of an operation that are fixed when it is built: the value of a constant, the map of
an index computation, the axes of a reshape, the static part of a slice, the strides of a
convolution, the structure of a generic operation.
-/
import ConvNest.Affine.Map
import ConvNest.Pair

namespace ConvNest.Program

/-- Whether the points of a loop dimension are independent or accumulate. -/
inductive Iterator where
  | parallel
  | reduction
  deriving DecidableEq, Repr, Inhabited

/-- The name of an iterator. -/
def Iterator.name : Iterator → String
  | parallel => "parallel"
  | reduction => "reduction"

/-- The structure of a generic operation: an indexing map for each input and output, the iterators
of its loops, and how its operands split into inputs, outputs and symbols. -/
structure GenericAttr where
  maps : List Affine.Map
  iterators : List Iterator
  inputs : Int64
  symbols : Int64
  deriving Repr, Inhabited

/-- The static offsets and sizes of a slice.  An entry equal to `dynamicMark` is given by an
operand: first the offsets, then the sizes, in order. -/
structure SliceAttr where
  offsets : List Int64
  sizes : List Int64
  deriving Repr, Inhabited

/-- The entry of a slice that is given by an operand. -/
def SliceAttr.dynamicMark : Int64 := -4611686018427387904

/-- The parameters of an operation. -/
inductive Attr where
  | none
  /-- A constant: indices and integers use the word, floats the double. -/
  | constant (int : Int64) (float : Float)
  | affine (map : Affine.Map)
  | axis (axis : Int64)
  /-- For each axis of the collapsed tensor, the axes of the expanded one. -/
  | reshape (groups : List (List Int64))
  | slice (attr : SliceAttr)
  | conv (strides dilations : Pair)
  | generic (attr : GenericAttr)
  deriving Repr, Inhabited

end ConvNest.Program
