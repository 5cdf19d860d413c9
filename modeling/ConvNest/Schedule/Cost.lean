/-
# The cost model

A schedule cuts the convolution into tiles and keeps some of them in the caches.  `Footprint` holds
the sizes of the tiles in bytes and their numbers, from which the working set of each cache level
follows.  `Footprint.accesses` counts the accesses that each level serves.
-/
import ConvNest.Schedule.Microkernel
import ConvNest.Schedule.Strategy

namespace ConvNest.Schedule

/-- A quotient rounded up, and zero if there is nothing to divide. -/
def ceilDiv (a b : Int64) : Int64 := if a ≤ 0 then 0 else (a + b - 1) / b

/-- A difference, and zero if it is negative. -/
def monus (a b : Int64) : Int64 := max (a - b) 0

/-- Accesses served by each level: cache lines, and elements for the first one. -/
structure Accesses where
  l1 : Int64
  l2 : Int64
  l3 : Int64
  mem : Int64
  deriving DecidableEq, Repr, Inhabited

namespace Accesses

/-- No accesses. -/
def none : Accesses := ⟨0, 0, 0, 0⟩

/-- The cycles that the accesses take. -/
def latency (x : Accesses) (a : Arch) : Int64 :=
  x.l1 * a.l1Latency + x.l2 * a.l2Latency + x.l3 * a.l3Latency + x.mem * a.memLatency

end Accesses

/-- The tiles of a schedule. -/
structure Footprint where
  /-- The bytes of an input tile. -/
  input : Int64
  /-- The bytes of a filter tile. -/
  filter : Int64
  /-- The bytes of an output tile. -/
  output : Int64
  inputTiles : Int64
  filterTiles : Int64
  deriving DecidableEq, Repr, Inhabited

namespace Footprint

/-- The tiles of a microkernel with one channel. -/
def ofMicrokernel (p : Problem) (k : Microkernel) : Footprint :=
  { input := k.windows * p.filterArea * p.elementSize
    filter := k.filters * p.filterArea * p.elementSize
    output := k.outputs * p.elementSize
    inputTiles := ceilDiv p.windows k.windows
    filterTiles := ceilDiv p.outChannels k.filters }

/-- The tiles with a block of channels. -/
def withChannels (f : Footprint) (channels : Int64) : Footprint :=
  { f with input := f.input * channels, filter := f.filter * channels }

/-- The number of tiles that the first and the second multiplier can be at most. -/
def multiplied (f : Footprint) : Strategy → Int64 × Int64
  | .weightStationary => (f.inputTiles, f.filterTiles)
  | _ => (f.filterTiles, f.inputTiles)

/-- The bytes touched in the first level by a block of channels. -/
def l1 (f : Footprint) (channels : Int64) : Int64 :=
  f.input * channels + f.filter * channels + f.output

/-- The bytes touched in the second level. -/
def l2 (f : Footprint) (s : Strategy) (k2 : Int64) : Int64 :=
  match s with
  | .inputStationary => f.input + k2 * f.filter + k2 * f.output
  | _ => k2 * f.input + f.filter + k2 * f.output

/-- The bytes touched in the third level. -/
def l3 (f : Footprint) (s : Strategy) (k2 k3 : Int64) : Int64 :=
  match s with
  | .inputStationary => k3 * f.input + k2 * f.filter + k2 * k3 * f.output
  | _ => k2 * f.input + k3 * f.filter + k2 * k3 * f.output

/-- The tiles that stay and those that are streamed: their numbers and bytes. -/
structure Roles where
  stayingTiles : Int64
  stayingSize : Int64
  streamedTiles : Int64
  streamedSize : Int64
  deriving DecidableEq, Repr, Inhabited

/-- Which tiles stay and which are streamed. -/
def roles (f : Footprint) : Strategy → Roles
  | .weightStationary => ⟨f.filterTiles, f.filter, f.inputTiles, f.input⟩
  | _ => ⟨f.inputTiles, f.input, f.filterTiles, f.filter⟩

/-- Accesses outside of the first level.
* Every tile comes from memory once.
* Streamed tiles come from memory again if they do not all fit in the second level and the staying
  ones not in the third.
* Staying tiles come from the third level for every further block of streamed tiles.
* Streamed tiles come from the second level after the first staying tile. -/
def traffic (f : Footprint) (a : Arch) (s : Strategy) (k2 k3 blocks : Int64) : Accesses :=
  let r := f.roles s
  let line := a.cacheLine
  let streamedAgain := monus (r.streamedTiles / k2) 1
  let stayingAgain := monus (r.stayingTiles / k3) 1
  let first := ceilDiv (blocks * (f.inputTiles * f.input + f.filterTiles * f.filter)) line
  let again := blocks *
    ceilDiv (min streamedAgain 1 * stayingAgain * r.streamedTiles * r.streamedSize) line
  { l1 := 0
    l2 := blocks * ceilDiv (monus r.stayingTiles 1 * r.streamedTiles * r.streamedSize) line
    l3 := blocks * ceilDiv (streamedAgain * r.stayingTiles * r.stayingSize) line
    mem := first + again }

/-- The number of multiplications and additions. -/
def steps (p : Problem) : Int64 := p.outChannels * p.windows * p.filterArea * p.inChannels

/-- Two reads of the first level for each step, but for those that other levels serve. -/
def withHits (p : Problem) (x : Accesses) : Accesses :=
  { x with l1 := monus (2 * steps p) (x.l3 + x.l2 + x.mem) }

/-- Adds the reloads of partial outputs, once for each block of channels after the first.  Whole
lines come from the first level that can hold what is touched in between. -/
def withReloads (p : Problem) (a : Arch) (blocks : Int64) (x : Accesses) : Accesses :=
  if blocks ≤ 1 then x
  else
    let depth := p.inChannels / blocks * p.filterArea
    let outputs := p.outChannels * p.windows
    let distance := (p.windows * depth + p.outChannels * depth + outputs) * p.elementSize
    let loads := (blocks - 1) * outputs
    let lines := loads * p.elementSize / a.cacheLine
    let y :=
      if distance < a.l1 then { x with l1 := x.l1 + lines }
      else if distance < a.l2 then { x with l2 := x.l2 + lines }
      else if distance < a.l3 then { x with l3 := x.l3 + lines }
      else { x with mem := x.mem + lines }
    { y with l1 := y.l1 + (loads - lines) }

/-- The accesses of a schedule, whose tiles hold `channels` channels. -/
def accesses (f : Footprint) (p : Problem) (a : Arch) (s : Strategy) (k2 k3 channels : Int64) :
    Accesses :=
  let blocks := p.inChannels / channels
  withReloads p a blocks (withHits p (f.traffic a s k2 k3 blocks))

end Footprint

end ConvNest.Schedule
