/-
# Blocking the reduction

The reduction is tiled twice: into tiles of the caches, and each of those into tiles of the
microkernel.  The first tiling makes loops over the batch, blocks of channels, and the two
dimensions of the output in the order of the strategy; the second one makes two more over the
output.
-/
import ConvNest.Attempt
import ConvNest.Tiling.Nest

namespace ConvNest.Conv

open Program Schedule

/-- A tiled convolution.  What is not known is absent. -/
structure LoopNest where
  /-- The operation that computes an innermost tile. -/
  kernel : Option OpId
  /-- The loops over output channels and windows, innermost first. -/
  loops : List (Option OpId)
  /-- The dimension of the reduction that each of these loops runs over. -/
  loopDims : List Int64
  /-- The loops over the batch and the blocks of channels, outermost first. -/
  outerLoops : List OpId
  deriving DecidableEq, Repr, Inhabited

/-- The tiling for the caches. -/
def macroTiling (k : Microkernel) (d : Decision) : Tiling.Options :=
  { sizes := [1, d.filterTile k, d.windowTile k, d.tileC, 0, 0]
    interchange := match d.strategy with
      | .inputStationary => [0, 3, 2, 1, 4, 5]
      | _ => [0, 3, 1, 2, 4, 5] }

/-- The tiling for the microkernel. -/
def microTiling (k : Microkernel) (d : Decision) : Tiling.Options :=
  { sizes := [0, k.filters, k.windows, 0, 0, 0]
    interchange := match d.strategy with
      | .inputStationary => [0, 2, 1, 3, 4, 5]
      | _ => [] }

/-- Tiles an operation, with the given account of a flaw. -/
def tileOr (i : OpId) (o : Tiling.Options) (disorder : Tiling.Flaw → Disorder) :
    Attempt Tiling.Nest := do
  match ← (Tiling.tile i o : Edit _) with
  | .ok n => return n
  | .error why => throw (.disorder (disorder why))

/-- The innermost two loops of a tiling over the output, the outer one first, with their
dimensions. -/
def outputLoops (loops : List OpId) (dims : List Nat) : List (Option OpId) × List Int64 :=
  (loops.reverse.take 2 |>.map some, (dims.reverse.take 2).map Int64.ofNat)

/-- Tiles a reduction for the caches and for the microkernel. -/
def buildTiledLoops (reduction : OpId) (k : Microkernel) (d : Decision) : Attempt LoopNest := do
  let outer ← tileOr reduction (macroTiling k d) .macroTiling
  match outer.loops, outer.tiled with
  | [_, _, _, _], [tile] =>
    let inner ← tileOr tile (microTiling k d) .microTiling
    match inner.loops, inner.tiled with
    | [_, _], [kernel] =>
      let (innerLoops, innerDims) := outputLoops inner.loops inner.dims
      let (outerLoops, outerDims) := outputLoops outer.loops outer.dims
      return ⟨some kernel, innerLoops ++ outerLoops, innerDims ++ outerDims, outer.loops.take 2⟩
    | ls, ts => throw (.disorder (.microCounts ls.length ts.length))
  | ls, ts => throw (.disorder (.macroCounts ls.length ts.length))

end ConvNest.Conv
