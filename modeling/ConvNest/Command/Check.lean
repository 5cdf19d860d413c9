/-
# Checking a tiled convolution

The function with the convolution, and the one with the loop nest, are run on the same arguments and
compared with the direct convolution.
-/
import ConvNest.Command.Request
import ConvNest.Program.Eval

namespace ConvNest.Command

open Program

/-- A tensor filled with small numbers that repeat after `period` elements. -/
def sample (s : Shape) (period offset : Int64) : Except Fault Tensor :=
  Tensor.tabulate s fun i => .ok (Int64.ofNat i % period - offset).toFloat

/-- Runs a function and compares its first result. -/
def checkFunction (g : Graph) (f : FuncId) (function : String) (args : List Tensor)
    (want : Tensor) :
    Reading Unit := do
  match g.run f args with
  | .error why => throw (.running function (g.func f).name why)
  | .ok results =>
    let got ← (itemAt results 0 : Except Fault Tensor)
    if !want.same got then
      let difference ← want.maxAbsDiff got
      throw (.differs function difference)

/-- Checks both functions, and answers what to say if all is well. -/
def check (g : Graph) (c : Convolution) (reference tiled : FuncId) : Reading String := do
  let input ← sample c.input 7 3
  let filter ← sample c.filter 5 2
  let output ← sample c.output 3 0
  let args := [input, filter, output]
  match input.conv2d filter output c.strides .ones with
  | .error why => throw (.direct why)
  | .ok want =>
    checkFunction g reference "reference" args want
    checkFunction g tiled "rewritten" args want
    return s!"verified: {c.text} matches the direct convolution\n"

end ConvNest.Command
