/-
# Convolutions that can be tiled

A convolution can be turned into a loop nest if its shapes are static and consistent, its dilations
are one, its strides positive, and its element types signed and no wider than that of the output.

`problemOf` checks this and gives the extents of the convolution, with what it works on.
-/
import ConvNest.Attempt
import ConvNest.Program.View
import ConvNest.Shape.Size

namespace ConvNest.Conv

open Program Schedule

/-- What a convolution works on. -/
structure Operands where
  conv : OpId
  input : ValueId
  filter : ValueId
  output : ValueId
  strides : Pair
  deriving DecidableEq, Repr, Inhabited

/-- The operands of a convolution, with its dilations. -/
def operandsOf (g : Graph) (i : OpId) : Inquiry (Operands × Pair) := do
  Inquiry.demand (g.kind i == .conv) (.unsupported (.notConv (g.kind i)))
  let input ← g.operand i 0
  let filter ← g.operand i 1
  let output ← g.operand i 2
  let (strides, dilations) ← g.convAttr i
  return (⟨i, input, filter, output, strides⟩, dilations)

/-- Checks that all shapes are known, and that the dilations are one. -/
def checkKnown (g : Graph) (x : Operands) (dilations : Pair) : Inquiry Unit := do
  Inquiry.demand (g.ty x.filter).shape.isStatic (.unsupported (.dynamicFilter (g.ty x.filter)))
  Inquiry.demand (g.ty x.input).shape.isStatic (.unsupported (.dynamicInput (g.ty x.input)))
  Inquiry.demand (g.ty x.output).shape.isStatic (.unsupported (.dynamicOutput (g.ty x.output)))
  Inquiry.demand (dilations == .ones) (.unsupported (.dilations dilations))

/-- The dimension of an axis, as a word. -/
def dimWord (s : Shape) (axis : Int64) : Except Fault Int64 := return (← s.dimAt axis).toWord

/-- The extents of a convolution of the given shapes. -/
def extents (input filter output : Shape) (strides : Pair) (vectorWidth : Int64) :
    Except Fault Problem := do
  let batch ← dimWord output 0
  let inChannels ← dimWord input 1
  let filterHeight ← dimWord filter 2
  let filterWidth ← dimWord filter 3
  let outChannels ← dimWord output 1
  let height ← dimWord output 2
  let width ← dimWord output 3
  let bytes ← Shape.elementSize output.elem
  return ⟨batch, inChannels, outChannels, ⟨filterHeight, filterWidth⟩, ⟨height, width⟩, strides,
    vectorWidth, Int64.ofNat bytes⟩

/-- Whether the shapes are those of a convolution without padding.  The conditions are asked one
after the other. -/
def consistent (p : Problem) (input filter : Shape) : Except Fault Bool := do
  if (← dimWord input 0) ≠ p.batch then return false
  if (← dimWord filter 0) ≠ p.outChannels then return false
  if (← dimWord filter 1) ≠ p.inChannels then return false
  let height ← dimWord input 2
  if height < p.filter.height then return false
  let width ← dimWord input 3
  if width < p.filter.width then return false
  return (height - p.filter.height) / p.strides.height + 1 = p.output.height ∧
    (width - p.filter.width) / p.strides.width + 1 = p.output.width

/-- Checks that the element types are signed and can be accumulated into the output. -/
def checkElements (g : Graph) (x : Operands) : Inquiry Unit := do
  [x.input, x.filter, x.output].forM fun v =>
    Inquiry.demand (!(g.ty v).elem.isUnsigned) (.unsupported (.unsigned (g.ty v)))
  [x.input, x.filter].forM fun v =>
    Inquiry.demand (Element.canWiden (g.ty v).elem (g.ty x.output).elem)
      (.unsupported (.accumulation (g.ty v) (g.ty x.output)))

/-- The extents of a convolution, and what it works on. -/
def problemOf (g : Graph) (i : OpId) (vectorWidth : Int64) : Inquiry (Problem × Operands) := do
  let (x, dilations) ← operandsOf g i
  checkKnown g x dilations
  let input := (g.ty x.input).shape
  let filter := (g.ty x.filter).shape
  let output := (g.ty x.output).shape
  let p ← extents input filter output x.strides vectorWidth
  Inquiry.demand (0 < p.strides.height && 0 < p.strides.width) (.unsupported (.strides x.strides))
  let fits ← consistent p input filter
  Inquiry.demand fits (.unsupported (.shapes input filter output))
  checkElements g x
  return (p, x)

end ConvNest.Conv
