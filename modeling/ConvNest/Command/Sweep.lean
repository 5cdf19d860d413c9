/-
# Sweeps

A sweep analyzes all convolutions with the given channels, output sizes and filter sizes, and
reports how often each strategy is chosen.
-/
import ConvNest.Command.Report
import ConvNest.KeySet
import ConvNest.Sequence

namespace ConvNest.Command

open Schedule

/-- The problems of a sweep, by channels, size and filter. -/
def sweepProblems (channels sizes filters : List Int64) (vectorWidth : Int64) : List Problem :=
  channels.flatMap fun c => sizes.flatMap fun n => filters.map fun f =>
    ⟨1, c, c, ⟨f, f⟩, ⟨n, n⟩, .ones, vectorWidth, 0⟩

/-- The analysis of a problem of a sweep. -/
structure SweepRow where
  problem : Problem
  microkernel : Microkernel
  decision : Decision
  inputLatency : Int64
  weightLatency : Int64
  deriving DecidableEq, Repr, Inhabited

/-- Analyzes a problem. -/
def sweepRow (c : Conv.Config) (p : Problem) : Except Failure SweepRow :=
  match c.analyzer.candidates p with
  | .error why => .error (.analyzing p (.schedule why))
  | .ok x =>
    .ok ⟨p, x.microkernel, x.best, x.inputStationary.cost, x.weightStationary.cost⟩

/-- The failure of a problem, if it has one. -/
def sweepFailure (c : Conv.Config) (problems : List Problem) (i : Nat) : Option Failure :=
  match problems[i]? with
  | none => none
  | some p =>
    match sweepRow c p with
    | .error why => some why
    | .ok _ => none

/-- Analyzes problems as tasks of a pool. -/
def analyzeAll (c : Conv.Config) (parallelism : Nat) (cancelled : Bool) (problems : List Problem) :
    Except Complaint (List SweepRow) :=
  let job : Pool.Job Failure := ⟨problems.length, parallelism, sweepFailure c problems⟩
  match (Pool.run job cancelled none).result with
  | .error why => .error (.sweep why)
  | .ok () => .ok (problems.filterMap fun p => (sweepRow c p).toOption)

/-- The number of rows that have a property, as a cell. -/
def countCell (rows : List SweepRow) (p : SweepRow → Bool) : String :=
  Text.grouped (Word.length (rows.filter p))

/-- The report on a sweep. -/
def sweepReport (rows : List SweepRow) : String :=
  let chosen (r : SweepRow) : String := r.decision.strategy.text
  let names := Sequence.sorted (KeySet.ofList (rows.map chosen)).keys
  let cells := names.map fun s => [s, countCell rows fun r => chosen r == s]
  let last := ["fallback", countCell rows fun r => r.decision.fallback]
  title s!"Sweep of {Text.count rows.length} problems" ++ "\n" ++
    (Table.mk ["Strategy", "Problems"] (cells ++ [last])).text

/-- The header of the file of a sweep. -/
def sweepHeader : List String :=
  ["channels", "size", "filter", "microkernel", "strategy", "k2", "k3", "tile_c", "is_latency",
    "ws_latency", "fallback"]

/-- The fields of a row of the file of a sweep. -/
def sweepFields (r : SweepRow) : List String :=
  [Text.word r.problem.inChannels, Text.word r.problem.output.height,
    Text.word r.problem.filter.height, r.microkernel.text, r.decision.strategy.text,
    Text.word r.decision.k2, Text.word r.decision.k3, Text.word r.decision.tileC,
    Text.word r.inputLatency, Text.word r.weightLatency,
    if r.decision.fallback then "true" else "false"]

/-- The file of a sweep: values separated by commas, one row a line. -/
def sweepFile (rows : List SweepRow) : Except Complaint String :=
  if rows.isEmpty then .error .emptyFrame
  else .ok (String.join ((sweepHeader :: rows.map sweepFields).map fun fields =>
    ",".intercalate fields ++ "\n"))

/-- The points of the plot of a sweep: the latencies of both strategies, one problem a line. -/
def sweepPoints (rows : List SweepRow) : String :=
  String.join (rows.map fun r =>
    s!"{Text.word (max r.inputLatency 1)} {Text.word (max r.weightLatency 1)}\n")

/-- Whether a plot has no range to draw: its scale is logarithmic, and every latency is one. -/
def undrawable (rows : List SweepRow) : Bool :=
  rows.all fun r => decide (r.inputLatency ≤ 1) && decide (r.weightLatency ≤ 1)

/-- The formats of a plot, as the endings of its file. -/
def plotFormats : List String := ["eps", "jpg", "jpeg", "pdf", "png", "svg", "tex", "tif", "tiff"]

/-- The ending of the last part of a path, in lower case. -/
def pathEnding (path : String) : String :=
  let last := (path.splitOn "/").getLastD ""
  match last.splitOn "." with
  | _ :: rest@(_ :: _) => Text.lower (rest.getLastD "")
  | _ => ""

end ConvNest.Command
