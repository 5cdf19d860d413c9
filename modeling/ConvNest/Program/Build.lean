/-
# Building operations

One function for each kind of operation: it checks its operands, computes the types of the results
and creates the operation at the insertion point.

`composedApply` folds what is known of an index computation: it gives a constant, one of the
operands, or a new operation that takes only the values it needs.
-/
import ConvNest.Affine.MapEval
import ConvNest.Program.View
import ConvNest.Shape.Size
import ConvNest.Tensor.Scalar

namespace ConvNest.Program.Edit

/-- The index that a value holds, known if the value is a constant. -/
def indexOf (v : ValueId) : Edit Index := do (← graph).indexOf v

/-! ## Constants and arithmetic -/

/-- An index constant. -/
def constIndex (n : Int64) : Edit ValueId := createValue .constant [] .index (.constant n 0)

/-- A scalar constant: integers are truncated, all other types keep the double. -/
def constScalar (e : Element) (x : Float) : Edit ValueId :=
  let attr : Attr :=
    if e.isInteger then .constant (Element.truncate x) 0 else .constant 0 x
  createValue .constant [] (.scalar e) attr

/-- The value of an index, a new constant if it is known. -/
def materialize : Index → Edit ValueId
  | .static n => constIndex n
  | .dynamic v => pure v

/-- An operation on two values of the same type. -/
def binary (kind : Kind) (lhs rhs : ValueId) : Edit ValueId := do
  let a ← tyOf lhs
  let b ← tyOf rhs
  demand (a == b) (.operandTypes kind a b)
  createValue kind [lhs, rhs] a .none

/-- The sum of two values, by the arithmetic of their type. -/
def add (lhs rhs : ValueId) : Edit ValueId := do
  binary (if (← tyOf lhs).elem.isFloat then .addFloat else .addInt) lhs rhs

/-- The product of two values, by the arithmetic of their type. -/
def mul (lhs rhs : ValueId) : Edit ValueId := do
  binary (if (← tyOf lhs).elem.isFloat then .mulFloat else .mulInt) lhs rhs

/-- The kind of operation of a widening. -/
def wideningKind : Element.Widening → Kind
  | .extendInt => .extendInt
  | .intToFloat => .intToFloat
  | .extendFloat => .extendFloat

/-- A scalar converted to a wider type; a scalar of that type stays as it is. -/
def widen (x : ValueId) (e : Element) : Edit ValueId := do
  let src := (← tyOf x).elem
  if src = e then return x
  match Element.widening? src e with
  | some w => createValue (wideningKind w) [x] (.scalar e) .none
  | none => throw (.cannotWiden src e)

/-! ## Index computations -/

/-- Checks that a value is an index. -/
def checkIndex (v : ValueId) (fault : Ty → Fault) : Edit Unit := do
  let t ← tyOf v
  demand t.isIndex (fault t)

/-- Checks that a map has an index value for each of its dimensions and symbols. -/
def checkAffineOperands (m : Affine.Map) (operands : List ValueId) : Edit Unit := do
  demand (Word.length operands == m.dims + m.syms)
    (.affineOperands m (m.dims + m.syms) operands.length)
  operands.zipIdx.forM fun p => checkIndex p.1 (.affineOperandType p.2)

/-- The value of a map with one result. -/
def affineApply (m : Affine.Map) (operands : List ValueId) : Edit ValueId := do
  demand (m.arity == 1) (.applyResults m)
  checkAffineOperands m operands
  createValue .affineApply operands .index (.affine m)

/-- The least result of a map. -/
def affineMin (m : Affine.Map) (operands : List ValueId) : Edit ValueId := do
  demand (m.arity != 0) (.minResults m)
  checkAffineOperands m operands
  createValue .affineMin operands .index (.affine m)

/-- New numbers for the items that are kept, in order, with the kept items. -/
def renumber {α : Type} (keep : List Bool) (items : List α) : List (Option Affine.Expr) × List α :=
  let step (acc : List (Option Affine.Expr) × List α) (p : Bool × α) :=
    if p.1 then (acc.1 ++ [some (.sym (Word.length acc.2))], acc.2 ++ [p.2])
    else (acc.1 ++ [none], acc.2)
  (keep.zip items).foldl step ([], [])

/-- The expressions of the indices that are known. -/
def knownSyms (operands : List Index) : List (Option Affine.Expr) :=
  operands.map fun
    | .static n => some (.const n)
    | .dynamic _ => none

/-- The value of an expression by a new operation, which takes only the indices that it needs. -/
def applyUsed (e : Affine.Expr) (operands : List Index) : Edit Index := do
  let m ← Affine.Map.make 0 (Word.length operands) [e]
  let (table, kept) := renumber (← m.usedSyms) operands
  let values ← kept.mapM materialize
  let m ← Affine.Map.make 0 (Word.length values) [← e.replace [] table]
  indexOf (← affineApply m values)

/-- The value of an expression whose symbols are the given indices. -/
def composedApply (expr : Affine.Expr) (operands : List Index) : Edit Index := do
  let e ← (← expr.replace [] (knownSyms operands)).simplify
  match ← e.asConst? with
  | some c => return .static c
  | none =>
    match e with
    | .sym p => Affine.pick operands p
    | _ => applyUsed e operands

/-! ## Tensors -/

/-- The dimension of a tensor at run time. -/
def tensorDim (t : ValueId) (axis : Int64) : Edit ValueId := do
  let ty ← tyOf t
  demand (ty.isTensor && 0 ≤ axis && axis < Word.length ty.shape.dims) (.tensorAxis axis ty)
  createValue .tensorDim [t] .index (.axis axis)

/-- The dimension of a tensor, known if its type tells. -/
def dimSize (t : ValueId) (axis : Int64) : Edit Index := do
  match ← (← tyOf t).shape.dimAt axis with
  | .static n => return .static n
  | .dynamic => indexOf (← tensorDim t axis)

/-- Checks that groups of axes are consecutive and cover all axes. -/
def checkGroups (groups : List (List Int64)) (rank : Nat) : Except Fault Unit :=
  let axes := groups.flatten
  if axes ≠ (List.range axes.length).map Int64.ofNat then .error (.groupsOrder groups rank)
  else if axes.length ≠ rank then .error (.groupsCover groups rank)
  else .ok ()

/-- The product of the dimensions of a group of axes, dynamic as soon as one of them is. -/
def groupDim (dims : List Dim) : Int64 → List Int64 → Except Fault Int64
  | acc, [] => .ok acc
  | acc, axis :: axes => do
    match ← Affine.pick dims axis with
    | .dynamic => return Dim.dynamicWord
    | .static n => groupDim dims (acc * n) axes

/-- The type of a tensor with groups of axes merged. -/
def collapsedTy (s : Shape) (groups : List (List Int64)) : Except Fault Ty := do
  Ty.tensorOf s.elem (← groups.mapM (groupDim s.dims 1))

/-- Merges groups of consecutive axes. -/
def collapse (src : ValueId) (groups : List (List Int64)) : Edit ValueId := do
  let s := (← tyOf src).shape
  checkGroups groups s.rank
  let ty ← collapsedTy s groups
  createValue .collapse [src] ty (.reshape groups)

/-- The product of the words of a group of axes. -/
def groupSize (words : List Int64) (axes : List Int64) : Except Fault Int64 := do
  return Shape.product (← axes.mapM (Affine.pick words))

/-- Checks that an axis is split into axes of the same size, as far as it is known. -/
def checkExpanded (ty : Ty) (result : Shape) (p : (List Int64 × Dim) × Nat) :
    Except Fault Unit := do
  let size ← groupSize result.words p.1.1
  match p.1.2 with
  | .static n => if n = size then return () else throw (.expandAxis p.2 ty result)
  | .dynamic => return ()

/-- Checks that all axes are split into axes of the same size, as far as they are known. -/
def checkExpandedAxes (ty : Ty) (groups : List (List Int64)) (result : Shape) : Except Fault Unit :=
  (groups.zip ty.shape.dims).zipIdx.forM (checkExpanded ty result)

/-- Splits axes into groups of consecutive ones, to the given shape. -/
def expand (src : ValueId) (groups : List (List Int64)) (result : Shape) : Edit ValueId := do
  let ty ← tyOf src
  checkGroups groups result.rank
  demand (groups.length == ty.shape.rank) (.expandGroups groups ty)
  checkExpandedAxes ty groups result
  createValue .expand [src] (← Ty.ofShape result) (.reshape groups)

/-- Splits offsets and sizes into their static part and the values of the others. -/
def splitIndices (offsets sizes : List Index) : SliceAttr × List ValueId :=
  let mark : Index → Int64
    | .static n => n
    | .dynamic _ => SliceAttr.dynamicMark
  let value? : Index → Option ValueId
    | .static _ => none
    | .dynamic v => some v
  (⟨offsets.map mark, sizes.map mark⟩, (offsets ++ sizes).filterMap value?)

/-- Checks one axis of a slice, as far as its size, its offset and the dimension are known. -/
def checkSliceAxis (kind : Kind) (s : Shape) (axis : Nat) (dim : Dim) (offset size : Index) :
    Except Fault Unit :=
  match size with
  | .dynamic _ => .ok ()
  | .static z =>
    if z ≤ 0 then .error (.sliceSize kind s z axis)
    else match offset, dim with
      | .static o, .static d => if d < o + z then .error (.sliceBounds kind s axis o z) else .ok ()
      | _, _ => .ok ()

/-- Checks the offsets and sizes of a slice against a shape, as far as they are known. -/
def checkSlice (kind : Kind) (s : Shape) (offsets sizes : List Index) : Except Fault Unit :=
  if offsets.length ≠ s.rank ∨ sizes.length ≠ s.rank then
    .error (.sliceCounts kind s offsets.length sizes.length)
  else ((s.dims.zip offsets).zip sizes).zipIdx.forM fun p =>
    checkSliceAxis kind s p.2 p.1.1.1 p.1.1.2 p.1.2

/-- The slice of a tensor. -/
def extractSlice (src : ValueId) (offsets sizes : List Index) : Edit ValueId := do
  let t ← tyOf src
  checkSlice .extractSlice t.shape offsets sizes
  let (attr, values) := splitIndices offsets sizes
  let dims := sizes.map fun
    | .static n => n
    | .dynamic _ => Dim.dynamicWord
  let ty ← Ty.tensorOf t.elem dims
  createValue .extractSlice (src :: values) ty (.slice attr)

/-- A tensor with a slice replaced by another tensor. -/
def insertSlice (src dest : ValueId) (offsets sizes : List Index) : Edit ValueId := do
  let s ← tyOf src
  let d ← tyOf dest
  checkSlice .insertSlice d.shape offsets sizes
  demand (s.shape.rank == d.shape.rank && s.elem == d.elem) (.insertTypes s d)
  let (attr, values) := splitIndices offsets sizes
  createValue .insertSlice (src :: dest :: values) d (.slice attr)

/-! ## Structured operations -/

/-- The convolution of an image and a filter, accumulated into an output. -/
def conv2d (input filter output : ValueId) (strides dilations : Pair) : Edit ValueId := do
  [input, filter, output].forM fun v => do
    let t ← tyOf v
    demand (t.isTensor && t.shape.rank == 4) (.convOperand t)
  createValue .conv [input, filter, output] (← tyOf output) (.conv strides dilations)

/-- Checks an indexing map of a generic operation. -/
def checkMap (iterators : List Iterator) (symbols : List ValueId)
    (p : (Affine.Map × ValueId) × Nat) :
    Edit Unit := do
  let m := p.1.1
  demand (m.dims == Word.length iterators && m.syms == Word.length symbols)
    (.genericMapArguments p.2 m iterators.length symbols.length)
  let rank := (← tyOf p.1.2).shape.rank
  demand (m.arity == rank) (.genericMapRank p.2 m rank)

/-- A generic operation.  `body` receives the scalars of the inputs and outputs and gives the values
to yield, one for each output, with anything else it wants to hand back. -/
def generic {α : Type} (inputs outputs symbols : List ValueId) (maps : List Affine.Map)
    (iterators : List Iterator) (body : List ValueId → Edit (List ValueId × α)) :
    Edit (OpId × α) := do
  let shaped := inputs ++ outputs
  demand (maps.length == shaped.length) (.genericMaps maps.length shaped.length)
  (maps.zip shaped).zipIdx.forM (checkMap iterators symbols)
  let g ← graph
  let block ← newBlock (shaped.map fun v => .scalar (g.ty v).elem)
  let attr : GenericAttr := ⟨maps, iterators, Word.length inputs, Word.length symbols⟩
  let i ← create .generic (shaped ++ symbols) (outputs.map g.ty) (.generic attr) (some block)
  let extra ← atPoint (pointAtEnd block) do
    let (yields, extra) ← body ((← graph).block block).args
    demand (yields.length == outputs.length) (.genericYields yields.length outputs.length)
    let _ ← create .genericYield yields [] .none none
    return extra
  return (i, extra)

/-- The end of a loop body. -/
def loopYield (values : List ValueId) : Edit OpId := create .loopYield values [] .none none

/-- The end of a function. -/
def funcReturn (values : List ValueId) : Edit OpId := create .funcReturn values [] .none none

/-- A loop from `lower` up to but without `upper`.  `body` receives the induction variable and the
carried values and gives the values for the next iteration, with anything else it wants to hand
back. -/
def forLoop {α : Type} (lower upper step : ValueId) (inits : List ValueId)
    (body : ValueId → List ValueId → Edit (List ValueId × α)) : Edit (OpId × α) := do
  [lower, upper, step].forM fun v => checkIndex v .loopBound
  let g ← graph
  let tys := inits.map g.ty
  let block ← newBlock (.index :: tys)
  let i ← create .forLoop (lower :: upper :: step :: inits) tys .none (some block)
  let extra ← atPoint (pointAtEnd block) do
    let args := ((← graph).block block).args
    let (yields, extra) ← body (← itemAt args 0) (args.drop 1)
    let _ ← loopYield yields
    return extra
  return (i, extra)

end ConvNest.Program.Edit
