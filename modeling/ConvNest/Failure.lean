/-
# Failures

A failure is the answer of an operation that could not do what it was asked for.  In contrast to a
fault it does not end the work.

All causes are listed here.  A failure has a category, by which callers tell failures apart, and a
message.  A silenceable failure says that nothing was changed, so that its target can be skipped.
-/
import ConvNest.Pair
import ConvNest.Program.Ty
import ConvNest.Schedule.Analyzer
import ConvNest.Tiling.Options

namespace ConvNest

/-- Why an operation is not a convolution that can be tiled. -/
inductive Unsupported where
  | notConv (kind : Program.Kind)
  | dynamicFilter (ty : Program.Ty)
  | dynamicInput (ty : Program.Ty)
  | dynamicOutput (ty : Program.Ty)
  | dilations (dilations : Pair)
  | strides (strides : Pair)
  | shapes (input filter output : Shape)
  | unsigned (ty : Program.Ty)
  | accumulation (src dst : Program.Ty)
  deriving DecidableEq, Repr

/-- The text of what is not supported. -/
def Unsupported.reason : Unsupported → String
  | notConv k => s!"expected a Conv2DNchwFchwOp, got {k.name}"
  | dynamicFilter t => s!"expected a static shape for the filter, got {t.text}"
  | dynamicInput t => s!"expected a static shape for the input, got {t.text}"
  | dynamicOutput t => s!"expected a static shape for the output, got {t.text}"
  | dilations d => s!"expected all ones for dilations, got {d.text}"
  | strides s => s!"expected positive strides, got {s.text}"
  | shapes i f o =>
    s!"inconsistent convolution shapes: input {i.typeText}, filter {f.typeText} " ++
      s!"and output {o.typeText}"
  | unsigned t => s!"expected signed element types, got {t.text}"
  | accumulation s d => s!"cannot accumulate {s.text} into {d.text}"

/-- How loops are not nested as they should be. -/
inductive Disorder where
  | macroTiling (why : Tiling.Flaw)
  | macroCounts (loops tiled : Nat)
  | microTiling (why : Tiling.Flaw)
  | microCounts (loops tiled : Nat)
  | missingLoops (count : Nat)
  | notLoops
  | nothingCarried
  | notNested
  | carriedCounts (outer inner : Int)
  | notLast
  | outerYield
  | innerInits
  | carriedUsed (user : Program.Kind)
  | innerBounds
  | accumulations (count : Nat)
  | accumulationYield (index : Nat)
  | yieldType (ty : Program.Ty) (index : Nat)
  | kernelOutside (kind : Program.Kind)
  deriving DecidableEq, Repr

/-- The text of a disorder. -/
def Disorder.reason : Disorder → String
  | macroTiling why => s!"macro tiling: {why.message}"
  | macroCounts l t =>
    s!"macro tiling generated {Text.count l} loops and {Text.count t} tiled ops, expected 4 and 1"
  | microTiling why => s!"microkernel tiling: {why.message}"
  | microCounts l t =>
    s!"microkernel tiling generated {Text.count l} loops and {Text.count t} tiled ops, " ++
      "expected 2 and 1"
  | missingLoops n => s!"swap needs two loops and a microkernel, got {Text.count n} loops"
  | notLoops => "loops to swap must be live scf.for ops"
  | nothingCarried => "loops to swap must have loop-carried values"
  | notNested => "inner loop is not directly nested in the outer loop"
  | carriedCounts o i => s!"outer loop carries {toString o} values, inner loop {toString i}"
  | notLast => "inner loop must be the last op before the outer loop terminator"
  | outerYield => "outer loop must yield the results of the inner loop"
  | innerInits => "inner loop must be initialized with the outer loop-carried values"
  | carriedUsed k => s!"outer loop-carried value used by {k.name}"
  | innerBounds => "inner loop bounds must be defined outside the outer loop"
  | accumulations n =>
    s!"expected exactly one accumulation op in the inner loop, found {Text.count n}"
  | accumulationYield i =>
    s!"inner loop doesn't yield its accumulation as carried value #{Text.count i}"
  | yieldType t i =>
    s!"inner loop yields a {t.text} as carried value #{Text.count i}, expected a tensor"
  | kernelOutside k => s!"microkernel {k.name} is not in the body of the inner loop"

/-- Why something was not done. -/
inductive Failure where
  | unsupported (why : Unsupported)
  | disorder (why : Disorder)
  | tiling (why : Tiling.Flaw)
  | schedule (why : Schedule.Flaw)
  | untileable (kind : Program.Kind)
  | unknownHandle
  | consumedHandle (name : String)
  | resultCount (count wanted : Nat)
  | report (text : String)
  /-- The analysis of a convolution failed. -/
  | analysis (why : Failure)
  /-- The analysis of a problem failed. -/
  | analyzing (p : Schedule.Problem) (why : Failure)
  /-- A transformation failed on a target, and its changes were undone. -/
  | undone (transformation : String) (target : Program.Kind) (why : Failure)
  | silenceable (why : Failure)
  deriving DecidableEq, Repr

namespace Failure

/-- What failures are told apart by. -/
inductive Category where
  | validation
  | structural
  | notTileable
  | invalidOptions
  | invalidProblem
  | invalidHandle
  | other
  deriving DecidableEq, Repr, Inhabited

/-- The name of a category. -/
def Category.name : Category → String
  | validation => "validation"
  | structural => "structural"
  | notTileable => "not_tileable"
  | invalidOptions => "invalid_options"
  | invalidProblem => "invalid_problem"
  | invalidHandle => "invalid_handle"
  | other => "error"

/-- The category of a failure. -/
def category : Failure → Category
  | unsupported _ => .validation
  | disorder _ => .structural
  | tiling why => if why.inOperation then .notTileable else .invalidOptions
  | schedule why => if why.inProblem then .invalidProblem else .other
  | untileable _ => .notTileable
  | unknownHandle => .invalidHandle
  | consumedHandle _ => .invalidHandle
  | resultCount _ _ => .other
  | report _ => .other
  | analysis why => why.category
  | analyzing _ why => why.category
  | undone _ _ why => why.category
  | silenceable why => why.category

/-- Whether the target of a failure can be skipped. -/
def isSilenceable : Failure → Bool
  | silenceable _ => true
  | analysis why => why.isSilenceable
  | analyzing _ why => why.isSilenceable
  | undone _ _ why => why.isSilenceable
  | _ => false

/-- The message of a failure. -/
def message : Failure → String
  | unsupported why => s!"{why.reason}: sconv: unsupported convolution"
  | disorder why => s!"{why.reason}: sconv: unexpected structure"
  | tiling why => why.message
  | schedule why => why.message
  | untileable k => s!"target {k.name}: {Tiling.Flaw.notTileableText}"
  | unknownHandle => "unknown handle <handle>: invalid handle"
  | consumedHandle name => s!"handle <handle> ({name}) was consumed: invalid handle"
  | resultCount n w => s!"returned {Text.count n} ops, expected {Text.count w}"
  | report text => text
  | analysis why => s!"sconv: schedule analysis: {why.message}"
  | analyzing p why => s!"analyzing {p.text}: {why.message}"
  | undone t k why => s!"transform {t} failed on {k.name}, payload restored: {why.message}"
  | silenceable why => why.message

end Failure

end ConvNest
