/-
# The direct convolution

The convolution of an image (batch, channels, height, width) with a filter (filters, channels,
height, width), accumulated into an output (batch, filters, height, width).  It is the numerical
reference for every other way to compute a convolution.

Elements are converted to the type of the output before they are multiplied, and every product and
sum is rounded to that type.  An output element takes its products in the order of channel, filter
row and filter column.
-/
import ConvNest.Pair
import ConvNest.Tensor.Basic

namespace ConvNest

/-- Adds a product to an accumulator of the given type. -/
def Scalar.multiplyAdd (e : Element) (acc x w : Scalar) : Scalar :=
  if e.isFloat then
    let product := Scalar.ofFloat e (e.roundFloat x.toFloat * e.roundFloat w.toFloat)
    Scalar.ofFloat e (acc.float + product.float)
  else
    Scalar.ofInt e (acc.int + e.wrapInt (x.toInt * w.toInt))

namespace Tensor

/-- One step of the accumulation of an output element: channel, filter row and filter column are
given by the point. -/
def convStep (input filter : Tensor) (e : Element) (strides dilations : Pair)
    (out : List Int64) (acc : Scalar) (point : List Int64) : Except Fault Scalar :=
  match out, point with
  | [b, o, y, x], [c, ky, kx] => do
    let row := y * strides.height + ky * dilations.height
    let col := x * strides.width + kx * dilations.width
    let iv ← input.scalarAt [b, c, row, col]
    let fv ← filter.scalarAt [o, c, ky, kx]
    return Scalar.multiplyAdd e acc iv fv
  | _, _ => .error (.stuck .position)

/-- The output with one of its elements accumulated over the box of channels, filter rows and
filter columns. -/
def convElement (input filter : Tensor) (strides dilations : Pair) (window : List Int64)
    (result : Tensor) (out : List Int64) : Except Fault Tensor := do
  let acc ← result.scalarAt out
  let step := convStep input filter result.elem strides dilations out
  result.setScalar out (← Box.foldM window step acc)

/-- The convolution of an image and a filter, accumulated into an output. -/
def conv2d (input filter output : Tensor) (strides dilations : Pair) : Except Fault Tensor :=
  match input.dims, filter.dims, output.dims with
  | [ib, ic, ih, iw], [fo, fc, fh, fw], [ob, oc, oh, ow] =>
    if ib ≠ ob ∨ fc ≠ ic ∨ oc ≠ fo then
      .error (.convShapes input.shape filter.shape output.shape)
    else
      let needH := (oh - 1) * strides.height + (fh - 1) * dilations.height + 1
      let needW := (ow - 1) * strides.width + (fw - 1) * dilations.width + 1
      if ih < needH ∨ iw < needW then
        .error (.convTooSmall input.shape output.shape needH needW)
      else
        Box.foldM [ob, fo, oh, ow]
          (convElement input filter strides dilations [ic, fh, fw]) output
  | _, _, _ => .error (.convRank input.shape filter.shape output.shape)

end Tensor

end ConvNest
