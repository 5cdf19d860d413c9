/-
# Microkernels

The innermost tile of a schedule: a number of filters by a number of windows, accumulated in
registers.

`Microkernel.grow` doubles the smaller side, the windows on a tie, as long as the accumulators fit
in the registers and the operands in a quarter of them.  Both sides are bounded by the problem, and
each step enlarges one of them.
-/
import ConvNest.Schedule.Arch
import ConvNest.Schedule.Problem

namespace ConvNest.Schedule

/-- The shape of the innermost tile. -/
structure Microkernel where
  filters : Int64
  windows : Int64
  deriving DecidableEq, Repr, Inhabited

namespace Microkernel

/-- The number of accumulated elements. -/
def outputs (k : Microkernel) : Int64 := k.filters * k.windows

/-- The text `8x16`: filters by windows. -/
def text (k : Microkernel) : String := s!"{Text.word k.filters}x{Text.word k.windows}"

/-- Whether a shape fits a number of register elements. -/
def fits (budget : Int64) (k : Microkernel) : Bool :=
  decide (k.outputs ≤ budget) && decide (k.filters + k.windows ≤ budget / 4)

/-- The larger shape to try next, if one fits. -/
def larger? (budget maxFilters maxWindows : Int64) (k : Microkernel) : Option Microkernel :=
  let moreFilters := { k with filters := min (2 * k.filters) maxFilters }
  let moreWindows := { k with windows := min (2 * k.windows) maxWindows }
  let canFilters := decide (k.filters < moreFilters.filters) && moreFilters.fits budget
  let canWindows := decide (k.windows < moreWindows.windows) && moreWindows.fits budget
  if canWindows && (decide (k.windows ≤ k.filters) || !canFilters) then some moreWindows
  else if canFilters then some moreFilters
  else none

/-- Enlarges a shape as long as it fits, at most `fuel` times. -/
def grow (budget maxFilters maxWindows : Int64) : Nat → Microkernel → Microkernel
  | 0, k => k
  | fuel + 1, k =>
    match k.larger? budget maxFilters maxWindows with
    | some k' => grow budget maxFilters maxWindows fuel k'
    | none => k

/-- The shape for a problem.  A side grows at most as often as its bound is large. -/
def ofProblem (p : Problem) (a : Arch) : Microkernel :=
  grow (a.vectorRegisters * p.vectorWidth) p.outChannels p.windows
    (p.outChannels.toInt.toNat + p.windows.toInt.toNat) ⟨1, 1⟩

/-- The shape with its sides cut to those of a problem. -/
def clamp (k : Microkernel) (p : Problem) : Microkernel :=
  ⟨min k.filters p.outChannels, min k.windows p.windows⟩

end Microkernel

end ConvNest.Schedule
