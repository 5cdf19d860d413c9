/-
# Reports on schedules

The schedule of a convolution, and the costs of both strategies.
-/
import ConvNest.Command.Request
import ConvNest.Command.Table
import ConvNest.Text.Amount

namespace ConvNest.Command

open Schedule

/-- The bytes of the outer tiles of the input, the filter and the output. -/
structure TileBytes where
  input : UInt64
  filter : UInt64
  output : UInt64
  deriving DecidableEq, Repr, Inhabited

/-- The bytes of the outer tiles of a schedule. -/
def tileBytes (s : Conv.Plan) : TileBytes :=
  let bytes := s.problem.elementSize.toUInt64
  let area := s.problem.filterArea.toUInt64
  let channels := s.decision.tileC.toUInt64
  let windows := (s.decision.windowTile s.microkernel).toUInt64
  let filters := (s.decision.filterTile s.microkernel).toUInt64
  ⟨windows * area * channels * bytes, filters * area * channels * bytes,
    windows * filters * bytes⟩

/-- The text `8 (+1)` of a parameter and what is left over. -/
def withExtra (n extra : Int64) : String := s!"{Text.word n} (+{Text.word extra})"

/-- The strategy of a schedule, and whether nothing else fitted. -/
def strategyText (d : Decision) : String :=
  d.strategy.text ++ (if d.fallback then " (fallback: capacity constraints not met)" else "")

/-- The report on the schedule of a convolution. -/
def scheduleReport (c : Convolution) (s : Conv.Plan) : String :=
  let p := s.problem
  let k := s.microkernel
  let d := s.decision
  let b := tileBytes s
  let rows :=
    [["convolution", c.text],
      ["problem", p.text],
      ["# windows", Text.grouped p.windows],
      ["microkernel", s!"{k.text} (filters x windows)"],
      ["strategy", strategyText d],
      ["k2, k3", s!"{withExtra d.k2 d.extraK2}, {withExtra d.k3 d.extraK3}"],
      ["channels block", s!"{withExtra d.tileC d.extraTileC} of {Text.word p.inChannels}"],
      ["outer tile",
        s!"{Text.word (d.filterTile k)} filters x {Text.word (d.windowTile k)} windows"],
      ["tile bytes",
        s!"input {Text.bytes b.input}, filter {Text.bytes b.filter}, output {Text.bytes b.output}"],
      ["modeled latency", Text.grouped d.cost ++ " cycles"]]
  title "Schedule" ++ "\n" ++ (Table.mk [] rows).text

/-- The row of a strategy. -/
def candidateRow (d : Decision) : List String :=
  [d.strategy.text, Text.word d.k2, Text.word d.k3, Text.word d.tileC,
    Text.grouped d.accesses.l1, Text.grouped d.accesses.l2, Text.grouped d.accesses.l3,
    Text.grouped d.accesses.mem, Text.grouped d.cost]

/-- The report on both strategies. -/
def candidatesReport (s : Conv.Plan) (c : Analyzer.Candidates) : String :=
  let header := ["Strategy", "k2", "k3", "tileC", "L1", "L2", "L3", "Memory", "Latency"]
  let rows := [candidateRow c.inputStationary, candidateRow c.weightStationary]
  title "Strategies" ++ "\n" ++ (Table.mk header rows).text ++
    (if s.decision.fallback then "\nno parameters fit the cache capacities" else "")

end ConvNest.Command
