/-
# Shapes

A shape is an element type with a list of dimensions, some of which may be known only at run time.
This file holds the type, its texts and the relations between shapes; `Shape/Size.lean` holds what
can fail.
-/
import ConvNest.Element.Basic
import ConvNest.Text.Basic

namespace ConvNest

/-- The size of one axis. -/
inductive Dim where
  /-- Known only at run time. -/
  | dynamic
  | static (n : Int64)
  deriving DecidableEq, Repr, Inhabited

namespace Dim

/-- The word that stands for a dynamic dimension in lists of dimensions. -/
def dynamicWord : Int64 := -1

/-- Reads a dimension from a word. -/
def ofWord (n : Int64) : Dim := if n = dynamicWord then dynamic else static n

/-- The word of a dimension. -/
def toWord : Dim → Int64
  | dynamic => dynamicWord
  | static n => n

/-- Whether the dimension is known. -/
def isStatic : Dim → Bool
  | dynamic => false
  | static _ => true

/-- A dimension in texts; a dynamic one is a question mark. -/
def text : Dim → String
  | dynamic => "?"
  | static n => Text.word n

/-- Whether two dimensions agree where both are known. -/
def agrees : Dim → Dim → Bool
  | static a, static b => a == b
  | _, _ => true

@[simp] theorem ofWord_toWord_dynamic : ofWord (toWord dynamic) = dynamic := by
  simp [ofWord, toWord]

theorem toWord_ofWord (n : Int64) : toWord (ofWord n) = n := by
  unfold ofWord
  split
  · next h => rw [h]; rfl
  · rfl

end Dim

/-- An element type and the dimensions of the axes. -/
structure Shape where
  elem : Element
  dims : List Dim
  deriving DecidableEq, Repr, Inhabited

namespace Shape

/-- The shape of a single element. -/
def scalar (e : Element) : Shape := ⟨e, []⟩

/-- The shape of nothing. -/
def invalid : Shape := ⟨.invalid, []⟩

/-- The shape with the given static dimensions. -/
def ofSizes (e : Element) (ns : List Int64) : Shape := ⟨e, ns.map .static⟩

/-- Whether the element type is valid. -/
def ok (s : Shape) : Bool := s.elem != .invalid

/-- The number of axes. -/
def rank (s : Shape) : Nat := s.dims.length

/-- Whether the shape is that of a single element. -/
def isScalar (s : Shape) : Bool := s.ok && s.rank == 0

/-- Whether all dimensions are known. -/
def isStatic (s : Shape) : Bool := s.dims.all Dim.isStatic

/-- The dimensions as words. -/
def words (s : Shape) : List Int64 := s.dims.map Dim.toWord

/-- The same dimensions with another element type. -/
def withElement (s : Shape) (e : Element) : Shape := { s with elem := e }

/-- Whether a value of shape `t` can stand where `s` is expected: same element type and rank, and
dimensions that agree where both are known. -/
def compatible (s t : Shape) : Bool :=
  s.elem == t.elem && s.rank == t.rank && (s.dims.zip t.dims).all fun p => p.1.agrees p.2

/-- The text `(Float32)[1 ? 3]`, and `(Float32)` without axes. -/
def text (s : Shape) : String :=
  "(" ++ s.elem.name ++ ")" ++
    if s.dims.isEmpty then "" else Text.bracketed (s.dims.map Dim.text)

/-- The text `tensor<1x?x3xf32>`, and `f32` without axes. -/
def typeText (s : Shape) : String :=
  if s.dims.isEmpty then s.elem.shortName
  else "tensor<" ++ String.join (s.dims.map fun d => d.text ++ "x") ++ s.elem.shortName ++ ">"

end Shape

end ConvNest
