/-
# Choosing a schedule

An analyzer holds a memory hierarchy, a search heuristic and possibly a fixed microkernel.  For each
strategy it chooses the block of channels and the two multipliers as large as the caches allow, and
takes the strategy that costs less.  If nothing fits, there is no blocking beyond the microkernel.
-/
import ConvNest.Schedule.Cost

namespace ConvNest.Schedule

/-- A schedule: the strategy and its tile parameters. -/
structure Decision where
  strategy : Strategy
  /-- The multiplier of the streamed tiles. -/
  k2 : Int64
  /-- The multiplier of the staying tiles. -/
  k3 : Int64
  /-- The number of channels of a block. -/
  tileC : Int64
  /-- The tiles and channels that are left over. -/
  extraK2 : Int64
  extraK3 : Int64
  extraTileC : Int64
  accesses : Accesses
  cost : Int64
  /-- Whether nothing fitted the caches. -/
  fallback : Bool
  deriving DecidableEq, Repr, Inhabited

namespace Decision

/-- A schedule of which only the parameters are given. -/
def ofParameters (s : Strategy) (k2 k3 tileC : Int64) : Decision :=
  ⟨s, k2, k3, tileC, 0, 0, 0, .none, 0, false⟩

/-- The number of filters of an outer tile. -/
def filterTile (d : Decision) (k : Microkernel) : Int64 :=
  match d.strategy with
  | .inputStationary => k.filters * d.k2
  | _ => k.filters * d.k3

/-- The number of windows of an outer tile. -/
def windowTile (d : Decision) (k : Microkernel) : Int64 :=
  match d.strategy with
  | .inputStationary => k.windows * d.k3
  | _ => k.windows * d.k2

/-- The text of a schedule. -/
def text (d : Decision) : String :=
  s!"{d.strategy.text}\x7bk2={Text.word d.k2} (+{Text.word d.extraK2}), " ++
  s!"k3={Text.word d.k3} (+{Text.word d.extraK3}), " ++
  s!"tileC={Text.word d.tileC} (+{Text.word d.extraTileC}), cost={Text.word d.cost}" ++
  (if d.fallback then ", fallback" else "") ++ "\x7d"

end Decision

/-- Why there is no schedule. -/
inductive Flaw where
  | field (name : String) (value : Int64) (p : Problem)
  | arch (a : Arch)
  | microkernel (k : Microkernel)
  | strategy (s : Strategy)
  deriving DecidableEq, Repr

namespace Flaw

/-- The text of a flaw. -/
def message : Flaw → String
  | field name n p =>
    s!"{name}={Text.word n} must be positive in {p.text}: invalid convolution problem"
  | arch a => s!"invalid architecture {a.text}: all fields must be positive"
  | microkernel k => s!"invalid microkernel {k.text}"
  | strategy s => s!"invalid strategy {s.text} in forced decision"

/-- Whether the flaw is in the problem. -/
def inProblem : Flaw → Bool
  | field _ _ _ => true
  | _ => false

end Flaw

/-- Checks that all fields of a problem are positive. -/
def Problem.validate (p : Problem) : Except Flaw Unit :=
  match p.badField? with
  | some f => .error (.field f.1 f.2 p)
  | none => .ok ()

/-- Checks that all fields of a memory hierarchy are positive. -/
def Arch.validate (a : Arch) : Except Flaw Unit := if a.valid then .ok () else .error (.arch a)

/-- How schedules are chosen. -/
structure Analyzer where
  arch : Arch
  heuristic : Heuristic
  fixed : Option Microkernel
  deriving DecidableEq, Repr, Inhabited

namespace Analyzer

/-- The usual analyzer. -/
def standard : Analyzer := ⟨.standard, .half, none⟩

/-- The microkernel for a problem. -/
def microkernel (z : Analyzer) (p : Problem) : Microkernel :=
  match z.fixed with
  | some k => k.clamp p
  | none => .ofProblem p z.arch

/-- The problem with its defaults, if everything is valid. -/
def prepare (z : Analyzer) (p : Problem) : Except Flaw Problem := do
  let q := p.withDefaults
  q.validate
  z.arch.validate
  if let some k := z.fixed then
    if k.filters ≤ 0 ∨ k.windows ≤ 0 then throw (.microkernel k)
  return q

/-- The schedule with the given parameters, with what is left over and its cost. -/
def decide (z : Analyzer) (p : Problem) (k : Microkernel) (s : Strategy) (k2 k3 tileC : Int64) :
    Decision :=
  let f := (Footprint.ofMicrokernel p k).withChannels tileC
  let (most2, most3) := f.multiplied s
  let x := f.accesses p z.arch s k2 k3 tileC
  { strategy := s
    k2 := k2
    k3 := k3
    tileC := tileC
    extraK2 := most2 % k2
    extraK3 := most3 % k3
    extraTileC := p.inChannels % tileC
    accesses := x
    cost := x.latency z.arch
    fallback := false }

/-- The largest parameters that fit the caches: both multipliers, and the channels of a block. -/
def fitting? (z : Analyzer) (p : Problem) (k : Microkernel) (s : Strategy) :
    Option (Int64 × Int64 × Int64) := do
  let f := Footprint.ofMicrokernel p k
  let tileC ← z.heuristic.search p.inChannels f.l1 z.arch.l1
  let f := f.withChannels tileC
  let (most2, most3) := f.multiplied s
  let k2 ← z.heuristic.search most2 (f.l2 s) z.arch.l2
  let k3 ← z.heuristic.search most3 (f.l3 s k2) z.arch.l3
  return (k2, k3, tileC)

/-- The schedule of a strategy. -/
def evaluate (z : Analyzer) (p : Problem) (k : Microkernel) (s : Strategy) : Decision :=
  match z.fitting? p k s with
  | some (k2, k3, tileC) => z.decide p k s k2 k3 tileC
  | none => { z.decide p k s 1 1 p.inChannels with fallback := true }

/-- What the analyzer offers: a microkernel, and a schedule of each strategy. -/
structure Candidates where
  microkernel : Microkernel
  inputStationary : Decision
  weightStationary : Decision
  deriving DecidableEq, Repr, Inhabited

/-- The schedules of both strategies. -/
def candidates (z : Analyzer) (p : Problem) : Except Flaw Candidates := do
  let q ← z.prepare p
  let k := z.microkernel q
  return ⟨k, z.evaluate q k .inputStationary, z.evaluate q k .weightStationary⟩

/-- The cheaper of both schedules; on a tie the weights stay. -/
def Candidates.best (c : Candidates) : Decision :=
  if c.inputStationary.cost < c.weightStationary.cost then c.inputStationary
  else c.weightStationary

/-- The schedule of a problem. -/
def analyze (z : Analyzer) (p : Problem) : Except Flaw (Microkernel × Decision) := do
  let c ← z.candidates p
  return (c.microkernel, c.best)

/-- A schedule with forced parameters, cut to those of the problem. -/
def override (z : Analyzer) (p : Problem) (forced : Decision) :
    Except Flaw (Microkernel × Decision) := do
  let q ← z.prepare p
  if !forced.strategy.valid then throw (.strategy forced.strategy)
  let k := z.microkernel q
  return (k, z.decide q k forced.strategy (max forced.k2 1) (max forced.k3 1)
    (min (max forced.tileC 1) q.inChannels))

end Analyzer

end ConvNest.Schedule
