/-
# Scalars

A single element at run time.  It has a float and an integer part, and its type says which of them
counts: integer arithmetic acts on the integer parts and float arithmetic on the float parts,
whatever the type.
-/
import ConvNest.Element.Rounding

namespace ConvNest

/-- One element, of a given type. -/
structure Scalar where
  elem : Element
  float : Float
  int : Int64
  deriving Inhabited

namespace Scalar

/-- The element of a type nearest to a double: rounded for floats, truncated and wrapped for the
others. -/
def ofFloat (e : Element) (x : Float) : Scalar :=
  if e.isFloat then ⟨e, e.roundFloat x, 0⟩ else ⟨e, 0, e.wrapInt (Element.truncate x)⟩

/-- The element of a type with the given integer part, wrapped to the type. -/
def ofInt (e : Element) (n : Int64) : Scalar := ⟨e, 0, e.wrapInt n⟩

/-- The value as a double. -/
def toFloat (s : Scalar) : Float := if s.elem.isFloat then s.float else s.int.toFloat

/-- The value as a word. -/
def toInt (s : Scalar) : Int64 := if s.elem.isFloat then Element.truncate s.float else s.int

/-- The value as a word, by way of a double. -/
def toIntThroughDouble (s : Scalar) : Int64 :=
  if s.elem.isFloat then Element.truncate s.float else Element.throughDouble s.int

/-- The sum of the integer parts, in the type of the first scalar. -/
def addInt (x y : Scalar) : Scalar := ofInt x.elem (x.int + y.int)

/-- The product of the integer parts. -/
def mulInt (x y : Scalar) : Scalar := ofInt x.elem (x.int * y.int)

/-- The sum of the float parts. -/
def addFloat (x y : Scalar) : Scalar := ofFloat x.elem (x.float + y.float)

/-- The product of the float parts. -/
def mulFloat (x y : Scalar) : Scalar := ofFloat x.elem (x.float * y.float)

/-- The bits of the integer part read as signed, in another type. -/
def extendInt (e : Element) (x : Scalar) : Scalar := ofInt e (x.elem.signExtend x.int)

/-- The bits of the integer part read as signed, as a float. -/
def intToFloat (e : Element) (x : Scalar) : Scalar := ofFloat e (x.elem.signExtend x.int).toFloat

/-- The value in another type, through a double. -/
def extendFloat (e : Element) (x : Scalar) : Scalar := ofFloat e x.toFloat

end Scalar

end ConvNest
