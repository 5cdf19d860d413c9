/-
# What the command is asked to do

The configuration and the convolution that the flags describe.
-/
import ConvNest.Command.Settings
import ConvNest.Conv.Apply

namespace ConvNest.Command

open Program Schedule

/-- Work of the command that can stop with a complaint. -/
abbrev Reading := ExceptT Complaint (Except Fault)

/-- Reads a positive number of a forced schedule. -/
def readPositive (value part : String) : Except Complaint Int64 :=
  match Text.readDecimal part with
  | .ok n => if 0 < n then .ok n else .error (.forceNumber value part)
  | .error _ => .error (.forceNumber value part)

/-- Reads a forced schedule: the strategy, both multipliers, and the channels of a block. -/
def readForce (value : String) : Except Complaint Decision :=
  match value.splitOn ":" with
  | [strategy, k2, k3, tileC] => do
    let s ← match Strategy.ofName? strategy with
      | some s => pure s
      | none => throw (.forceStrategy value strategy)
    let k2 ← readPositive value k2
    let k3 ← readPositive value k3
    let tileC ← readPositive value tileC
    return .ofParameters s k2 k3 tileC
  | _ => .error (.forceForm value)

/-- The configuration that the flags describe. -/
def Settings.config (s : Settings) : Except Complaint Conv.Config := do
  let h ← match Heuristic.ofName? s.heuristic with
    | some h => pure h
    | none => throw (.unknownHeuristic s.heuristic)
  let forced ← if s.force == "" then pure none else some <$> readForce s.force
  return { Conv.Config.standard with
    vectorWidth := s.vectorWidth
    heuristic := h
    forced := forced
    skipSwap := s.skipSwap }

/-- A convolution to tile. -/
structure Convolution where
  input : Shape
  filter : Shape
  output : Shape
  strides : Pair
  deriving DecidableEq, Repr, Inhabited

namespace Convolution

/-- The text of a convolution. -/
def text (c : Convolution) : String :=
  s!"conv({c.input.text}, {c.filter.text}) -> {c.output.text}, strides={c.strides.text}"

/-- The output size along an axis. -/
def outputSize (input filter : List Int64) (strides : Pair) (axis : Nat) (stride : Int64) :
    Reading Int64 := do
  if stride ≤ 0 then throw (.strides strides)
  let i ← (itemAt input axis : Except Fault Int64)
  let f ← (itemAt filter axis : Except Fault Int64)
  if i - f < 0 then throw (.filterFit filter input)
  return (i - f) / stride + 1

/-- The convolution of an input and a filter without padding. -/
def make (elem acc : Element) (input filter : List Int64) (strides : Pair) :
    Reading Convolution := do
  let i ← (itemAt input 1 : Except Fault Int64)
  let f ← (itemAt filter 1 : Except Fault Int64)
  if i ≠ f then throw (.channels i f)
  let inputShape ← Shape.make elem input
  let filterShape ← Shape.make elem filter
  let batch ← (itemAt input 0 : Except Fault Int64)
  let channels ← (itemAt filter 0 : Except Fault Int64)
  let height ← outputSize input filter strides 2 strides.height
  let width ← outputSize input filter strides 3 strides.width
  let outputShape ← Shape.make acc [batch, channels, height, width]
  return ⟨inputShape, filterShape, outputShape, strides⟩

/-- A function that returns the convolution of its arguments, and the convolution. -/
def build (c : Convolution) : Edit (FuncId × OpId) := do
  let input ← Ty.ofShape c.input
  let filter ← Ty.ofShape c.filter
  let output ← Ty.ofShape c.output
  let f ← Edit.newFunc "conv" [input, filter, output]
  let b ← Edit.bodyOf f
  Edit.setPoint (Edit.pointAtEnd b)
  let args := ((← Edit.graph).block b).args
  let x ← itemAt args 0
  let w ← itemAt args 1
  let y ← itemAt args 2
  let result ← Edit.conv2d x w y c.strides .ones
  let _ ← Edit.funcReturn [result]
  let i ← present ((← Edit.graph).definingOp result)
  return (f, i)

end Convolution

/-- The convolution that the flags describe. -/
def Settings.convolution (s : Settings) : Reading Convolution := do
  let elem ← (ExceptT.mk (.ok (readElement s.element)) : Reading Element)
  let acc ← (ExceptT.mk
    (.ok (if s.accumulator == "" then .ok elem else readElement s.accumulator)) :
    Reading Element)
  match s.strides with
  | [h, w] =>
    if s.input.length ≠ 4 ∨ s.filter.length ≠ 4 then throw (.ranks s.input s.filter s.strides)
    Convolution.make elem acc s.input s.filter ⟨h, w⟩
  | _ => throw (.ranks s.input s.filter s.strides)

end ConvNest.Command
