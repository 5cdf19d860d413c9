/-
# Configurations

How a convolution is tiled: the machine, the search heuristic, and what is fixed in advance.  What
is not given takes its default.
-/
import ConvNest.Schedule.Analyzer

namespace ConvNest.Conv

open Schedule

/-- How convolutions are tiled. -/
structure Config where
  vectorWidth : Int64
  arch : Arch
  heuristic : Heuristic
  /-- The shape of the innermost tile, if it is fixed. -/
  microkernel : Option Microkernel
  /-- The schedule, if it is forced. -/
  forced : Option Decision
  /-- Whether the innermost loops are left in their order. -/
  skipSwap : Bool
  deriving DecidableEq, Repr, Inhabited

namespace Config

/-- The usual configuration. -/
def standard : Config := ⟨Problem.defaultVectorWidth, .standard, .half, none, none, false⟩

/-- A configuration of which nothing is given. -/
def unset : Config := ⟨0, .unset, .half, none, none, false⟩

/-- The analyzer of a configuration. -/
def analyzer (c : Config) : Analyzer :=
  ⟨if c.arch = .unset then .standard else c.arch, c.heuristic, c.microkernel⟩

/-- The width of a vector register. -/
def width (c : Config) : Int64 :=
  if c.vectorWidth ≤ 0 then Problem.defaultVectorWidth else c.vectorWidth

/-- The schedule of a problem. -/
def decide (c : Config) (p : Problem) : Except Flaw (Microkernel × Decision) :=
  match c.forced with
  | some d => c.analyzer.override p d
  | none => c.analyzer.analyze p

end Config

end ConvNest.Conv
