import ConvNest.Affine.Eval
import ConvNest.Affine.Expr
import ConvNest.Affine.Linear
import ConvNest.Affine.Map
import ConvNest.Affine.MapEval
import ConvNest.Attempt
import ConvNest.Command.Check
import ConvNest.Command.Complaint
import ConvNest.Command.Report
import ConvNest.Command.Request
import ConvNest.Command.Session
import ConvNest.Command.Settings
import ConvNest.Command.Sweep
import ConvNest.Command.Table
import ConvNest.Conv.Apply
import ConvNest.Conv.Blocking
import ConvNest.Conv.Config
import ConvNest.Conv.Operands
import ConvNest.Conv.Reduction
import ConvNest.Conv.Swap
import ConvNest.Element.Basic
import ConvNest.Element.Rounding
import ConvNest.Failure
import ConvNest.Fault
import ConvNest.KeySet
import ConvNest.Main
import ConvNest.Pair
import ConvNest.Permutation
import ConvNest.Pool
import ConvNest.Program.Attr
import ConvNest.Program.Build
import ConvNest.Program.Edit
import ConvNest.Program.Eval
import ConvNest.Program.Graph
import ConvNest.Program.Handles
import ConvNest.Program.Kind
import ConvNest.Program.Printer
import ConvNest.Program.Rewriter
import ConvNest.Program.Ty
import ConvNest.Program.Verify
import ConvNest.Program.View
import ConvNest.Schedule.Analyzer
import ConvNest.Schedule.Arch
import ConvNest.Schedule.Cost
import ConvNest.Schedule.Microkernel
import ConvNest.Schedule.Problem
import ConvNest.Schedule.Strategy
import ConvNest.Sequence
import ConvNest.Shape.Basic
import ConvNest.Shape.Box
import ConvNest.Shape.Size
import ConvNest.Tensor.Basic
import ConvNest.Tensor.Conv
import ConvNest.Tensor.Scalar
import ConvNest.Tensor.Slice
import ConvNest.Text.Amount
import ConvNest.Text.Basic
import ConvNest.Text.Blank
import ConvNest.Text.Decimal
import ConvNest.Text.Lower
import ConvNest.Text.Numeral
import ConvNest.Text.Printable
import ConvNest.Text.Quoted
import ConvNest.Tiling.Nest
import ConvNest.Tiling.Options
import ConvNest.Tiling.Tile
import ConvNest.Transform.Handles
import ConvNest.Transform.Library
import ConvNest.Transform.Run
import ConvNest.Word
import ConvNest.Proofs.StrategyDuality
import ConvNest.Proofs.LargestFit
import ConvNest.Proofs.AccessCounts
import ConvNest.Proofs.OuterTiles
import ConvNest.Proofs.IndexOrder
import ConvNest.Proofs.ConvShapes
import ConvNest.Proofs.Simplify
import ConvNest.Proofs.MapText
import ConvNest.Proofs.CanonicalForm
import ConvNest.Proofs.Alike
import ConvNest.Proofs.Copy
import ConvNest.Proofs.CopyNames
import ConvNest.Proofs.Disjoint
import ConvNest.Proofs.Reading
import ConvNest.Proofs.Settled
import ConvNest.Proofs.SwapEmission
import ConvNest.Proofs.SwapExchange
import ConvNest.Proofs.Attempts
import ConvNest.Proofs.SwapRun
import ConvNest.Proofs.SwapOutcome
import ConvNest.Proofs.Definedness
import ConvNest.Proofs.RewriteUses
import ConvNest.Proofs.TypeSoundness
import ConvNest.Proofs.Isolation
import ConvNest.Proofs.Replacement
import ConvNest.Proofs.ReturnedHandles
import ConvNest.Proofs.Composed
import ConvNest.Proofs.PoolRuns
import ConvNest.Proofs.Readback
import ConvNest.Proofs.Inverses
import ConvNest.Proofs.TripCount
import ConvNest.Proofs.Regrouping
