/-
# Tiling by loops

A generic operation is replaced by a nest of loops, one for each loop of its iteration domain that
is tiled.  The loops carry the destinations.  The innermost body computes a tile from slices of the
operands and inserts its results into the carried destinations; tiles at the boundary are cut off.
-/
import ConvNest.Tiling.Options
import ConvNest.Tiling.Tile

namespace ConvNest.Tiling

open Program ConvNest.Affine

/-- A tiled operation. -/
structure Nest where
  /-- The operations that compute a tile. -/
  tiled : List OpId
  /-- The loops, outermost first. -/
  loops : List OpId
  /-- The loop of the iteration domain that each loop runs over. -/
  dims : List Nat
  /-- The values that replace the results. -/
  replacements : List ValueId
  deriving DecidableEq, Repr, Inhabited

/-- A loop to build. -/
structure Level where
  dim : Nat
  upper : ValueId
  step : ValueId
  deriving DecidableEq, Repr, Inhabited

/-- Whether an operation can be tiled. -/
def tileable (g : Graph) (i : OpId) : Bool := g.kind i == .generic

/-- The size of the tile that starts at an induction variable: the tile size if it divides the upper
bound, and else no more than what is left. -/
def boundarySize (iv : ValueId) (upper : Index) (size : Int64) : Edit Index := do
  match upper with
  | .static n =>
    if n % size = 0 then return .static size
    else
      let m ← Map.make 0 1 [.const size, .sub (.const n) (.sym 0)]
      Edit.indexOf (← Edit.affineMin m [iv])
  | .dynamic v =>
    let m ← Map.make 0 2 [.const size, .sub (.sym 1) (.sym 0)]
    Edit.indexOf (← Edit.affineMin m [iv, v])

/-- The offset and the size of a tile in one loop: all of it, unless it has an induction
variable. -/
def tileSide (iv : Option ValueId) (upper : Index) (size : Int64) : Edit (Index × Index) := do
  match iv with
  | none => return (.static 0, upper)
  | some v =>
    let offset ← Edit.indexOf v
    return (offset, ← boundarySize v upper size)

/-- The tile of the innermost body. -/
def innerTile (ivs : List (Option ValueId)) (domain : List Index) (sizes : List Int64) :
    Edit Tile := do
  let sides ← ((ivs.zip domain).zip sizes).mapM fun p => tileSide p.1.1 p.1.2 p.2
  return ⟨sides.map (·.1), sides.map (·.2)⟩

/-- Inserts the results of a tile into the destinations. -/
def insertTiles (i : OpId) (dests : List ValueId) (ss : List Slice) : Edit (List ValueId) :=
  dests.zipIdx.mapM fun p => do
    let r ← (← Edit.graph).result i p.2
    let s ← itemAt ss p.2
    Edit.insertSlice r p.1 s.offsets s.sizes

/-- What is tiled, and by how much. -/
structure Target where
  op : OpId
  domain : List Index
  sizes : List Int64
  zero : ValueId
  deriving Inhabited

/-- The innermost body: a tile, and its results inserted into the destinations. -/
def innerBody (t : Target) (ivs : List (Option ValueId)) (dests : List ValueId) :
    Edit (List ValueId × OpId) := do
  let tile ← innerTile ivs t.domain t.sizes
  let (tiled, ss) ← tiledOp t.op tile dests
  return (← insertTiles tiled dests ss, tiled)

/-- Builds loops around the innermost body.  Answers the values that the nest computes, its loops,
and the tiled operation. -/
def build (t : Target) : List Level → List (Option ValueId) → List ValueId →
    Edit (List ValueId × List OpId × OpId)
  | [], ivs, dests => do
    let (yields, tiled) ← innerBody t ivs dests
    return (yields, [], tiled)
  | l :: ls, ivs, dests => do
    let (loop, loops, tiled) ← Edit.forLoop t.zero l.upper l.step dests fun iv carried => do
      let (yields, rest) ← build t ls (ivs.set l.dim (some iv)) carried
      return (yields, rest)
    return ((← Edit.op loop).results, loop :: loops, tiled)

/-- A tile size, no larger than the number of iterations if that is known. -/
def capped (upper : Index) (size : Int64) : Int64 :=
  match upper with
  | .static n => if size ≠ 0 ∧ n < size then n else size
  | .dynamic _ => size

/-- The upper bounds and steps of the loops to build. -/
def levels (domain : List Index) (sizes : List Int64) (dims : List Nat) : Edit (List Level) :=
  dims.mapM fun d => do
    let upper ← Edit.materialize (← itemAt domain d)
    let step ← Edit.constIndex (← itemAt sizes d)
    return ⟨d, upper, step⟩

/-- Replaces an operation by loops over some of its dimensions, at the insertion point. -/
def tileDims (i : OpId) (domain : List Index) (sizes : List Int64) (dims : List Nat) :
    Edit Nest := do
  let zero ← Edit.constIndex 0
  let ls ← levels domain sizes dims
  let dests ← (← Edit.graph).outputs i
  let (values, loops, tiled) ←
    build ⟨i, domain, sizes, zero⟩ ls (domain.map fun _ => none) dests
  Edit.replaceOp i values
  return ⟨[tiled], loops, dims, values⟩

/-- Tiles an operation with checked options. -/
def tileResolved (i : OpId) (o : Resolved) : Edit Nest := do
  Edit.setPoint (← Edit.pointBefore i)
  let domain ← domain i
  let sizes := List.zipWith capped domain o.sizes
  let dims := o.order.filter fun d => o.sizes.getD d 0 ≠ 0
  if dims.isEmpty then return ⟨[i], [], [], (← Edit.op i).results⟩
  else tileDims i domain sizes dims

/-- Tiles an operation.  Nothing is changed if the options do not fit. -/
def tile (i : OpId) (o : Options) : Edit (Except Flaw Nest) := do
  let g ← Edit.graph
  if tileable g i then
    match o.resolve (← g.genericAttr i).iterators.length with
    | .error f => return .error f
    | .ok r => return .ok (← tileResolved i r)
  else return .error (.notTileable (g.kind i))

end ConvNest.Tiling
