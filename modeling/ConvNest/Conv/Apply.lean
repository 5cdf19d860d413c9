/-
# Tiling a convolution

`plan` chooses a schedule for a convolution.  `apply` replaces the convolution by a reduction, tiles
it by the schedule, and, if the inputs stay in the cache, exchanges the innermost two loops.

A convolution that is not supported is found out before anything is changed.
-/
import ConvNest.Conv.Config
import ConvNest.Conv.Reduction
import ConvNest.Conv.Swap

namespace ConvNest.Conv

open Program Schedule

/-- The schedule of a convolution. -/
structure Plan where
  problem : Problem
  microkernel : Microkernel
  decision : Decision
  deriving DecidableEq, Repr, Inhabited

/-- The schedule of a convolution, with what it works on. -/
def plan (g : Graph) (i : OpId) (c : Config) : Inquiry (Plan × Operands) := do
  let (p, x) ← problemOf g i c.width
  match c.decide p with
  | .ok (k, d) => return (⟨p.withDefaults, k, d⟩, x)
  | .error why => throw (.analysis (.schedule why))

/-- Tiles a convolution. -/
def apply (i : OpId) (c : Config) : Attempt (LoopNest × Plan) := do
  let (s, x) ← (plan (← (Edit.graph : Edit Graph)) i c : Inquiry _)
  let reduction ← (reformulate s.problem x : Edit OpId)
  let nest ← buildTiledLoops reduction s.microkernel s.decision
  if s.decision.strategy = .inputStationary ∧ !c.skipSwap then
    return (← swapLoops nest, s)
  else return (nest, s)

end ConvNest.Conv
