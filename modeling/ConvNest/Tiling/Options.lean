/-
# Options of a tiling

A tiling is asked for by a tile size for each loop, where zero leaves a loop alone, and by the order
of the new loops.  `Options.resolve` checks both against the number of loops.
-/
import ConvNest.Permutation
import ConvNest.Program.Kind

namespace ConvNest.Tiling

/-- How to tile. -/
structure Options where
  /-- The tile size of each loop; loops without one are left alone, as for zero. -/
  sizes : List Int64
  /-- The order of the loops, outermost first; the empty order is that of the operation. -/
  interchange : List Int64
  deriving DecidableEq, Repr, Inhabited

/-- Why an operation is not tiled. -/
inductive Flaw where
  | notTileable (kind : Program.Kind)
  | tooManySizes (sizes loops : Nat)
  | negativeSize (size : Int64) (loop : Nat)
  | interchange (why : Permutation.Flaw)
  deriving DecidableEq, Repr

namespace Flaw

/-- The text of a flaw without its category. -/
def reason : Flaw → String
  | notTileable k => s!"cannot tile {k.name}"
  | tooManySizes n l => s!"{Text.count n} tile sizes for {Text.count l} loops"
  | negativeSize n d => s!"negative tile size {Text.word n} for loop d{Text.count d}"
  | interchange why => s!"interchange: {why.message}"

/-- Whether the flaw is in the operation, and not in the options. -/
def inOperation : Flaw → Bool
  | notTileable _ => true
  | _ => false

/-- The complaint about an operation that cannot be tiled. -/
def notTileableText : String := "only TilingInterface ops are supported"

/-- The text of a flaw. -/
def message (f : Flaw) : String :=
  f.reason ++ ": " ++ (if f.inOperation then notTileableText else "invalid tiling options")

end Flaw

/-- Options that fit an operation: a size for each loop, and the loops in order. -/
structure Resolved where
  sizes : List Int64
  order : List Nat
  deriving DecidableEq, Repr, Inhabited

namespace Options

/-- The sizes, with zeros for those that are missing. -/
def padded (o : Options) (loops : Nat) : List Int64 :=
  o.sizes ++ List.replicate (loops - o.sizes.length) 0

/-- The order of the loops. -/
def order (o : Options) (loops : Nat) : List Int64 :=
  if o.interchange.isEmpty then (List.range loops).map Int64.ofNat else o.interchange

/-- The options for a number of loops. -/
def resolve (o : Options) (loops : Nat) : Except Flaw Resolved := do
  if loops < o.sizes.length then throw (.tooManySizes o.sizes.length loops)
  let sizes := o.padded loops
  if let some p := sizes.zipIdx.find? fun p => decide (p.1 < 0) then throw (.negativeSize p.1 p.2)
  let order := o.order loops
  (Permutation.check order (Int64.ofNat loops)).mapError .interchange
  return ⟨sizes, order.map fun d => d.toInt.toNat⟩

end Options

end ConvNest.Tiling
