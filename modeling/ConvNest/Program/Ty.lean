/-
# Types of values

A value of a program is a tensor, a single element, or an index (a word used for bounds, offsets and
sizes).
-/
import ConvNest.Shape.Basic

namespace ConvNest.Program

/-- The type of a value. -/
inductive Ty where
  | invalid
  | tensor (shape : Shape)
  | scalar (elem : Element)
  | index
  deriving DecidableEq, Repr, Inhabited

namespace Ty

/-- The shape of the values; the empty one for values that have none. -/
def shape : Ty → Shape
  | tensor s => s
  | scalar e => Shape.scalar e
  | index | invalid => Shape.invalid

/-- The element type of the values. -/
def elem (t : Ty) : Element := t.shape.elem

/-- Whether the type is a tensor type. -/
def isTensor : Ty → Bool
  | tensor _ => true
  | _ => false

/-- Whether the type is a scalar type. -/
def isScalar : Ty → Bool
  | scalar _ => true
  | _ => false

/-- Whether the type is the index type. -/
def isIndex : Ty → Bool
  | index => true
  | _ => false

/-- The printed type. -/
def text : Ty → String
  | index => "index"
  | tensor s => s.typeText
  | scalar e => e.shortName
  | invalid => "<invalid>"

/-- Whether a value of type `t` may be replaced by one of type `u`: equal types, or tensors whose
shapes are compatible. -/
def replaceableBy (t u : Ty) : Bool :=
  t == u || (t.isTensor && u.isTensor && t.shape.compatible u.shape)

end Ty

end ConvNest.Program
