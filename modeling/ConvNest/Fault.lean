/-
# Faults

A fault ends a computation.  It is either a broken rule, which has a message, or a stuck step: an
access to something that is not there, which has none.

All causes are listed here, with the data they report, and `Fault.message` is the only place where
they are put into words.
-/
import ConvNest.Affine.Map
import ConvNest.Program.Kind
import ConvNest.Program.Ty

namespace ConvNest

/-- Why a step has no result. -/
inductive Stuck where
  /-- A position outside of a list. -/
  | position
  /-- A division by zero. -/
  | division
  /-- A block, body or operation that is not there. -/
  | absent
  /-- An attribute or run-time value of another kind. -/
  | kind
  /-- A length that is negative or too large. -/
  | length
  /-- A nesting that has no end. -/
  | endless
  deriving DecidableEq, Repr, Inhabited

/-- How the dimensions of a shape differ from those asked for. -/
inductive ShapeMismatch where
  | rank (shape : Shape) (wanted : Int64)
  | axis (shape : Shape) (axis : Nat) (found wanted : Int64) (dims : List Int64)
  | element (shape : Shape) (wanted : Element)
  | dynamic (shape : Shape) (axis : Nat)
  deriving DecidableEq, Repr

/-- The text of a mismatch. -/
def ShapeMismatch.message : ShapeMismatch → String
  | rank s n =>
    s!"shape {s.text} has incompatible rank {Text.count s.rank} (wanted {Text.word n})"
  | axis s i a b ds =>
    s!"shape {s.text} axis {Text.count i} has dimension {Text.word a}, wanted {Text.word b} " ++
      s!"(shape wanted={Text.words ds})"
  | element s e => s!"shape {s.text} has incompatible dtype {s.elem.name} (wanted {e.name})"
  | dynamic s i => s!"shape {s.text} has a dynamic dimension at axis {Text.count i}"

/-- Why a computation ends. -/
inductive Fault where
  | stuck (why : Stuck)
  -- index expressions
  | quotientDivisor (c : Int64)
  | remainderDivisor (c : Int64)
  | unknownOperation (e : Affine.Expr)
  | dimOutOfRange (pos count : Int64)
  | symOutOfRange (pos count : Int64)
  | mapArguments (map : Affine.Map) (dims syms : Nat)
  -- shapes and element types
  | unknownSize (elem : Element)
  | dimNotPositive (shape : Shape)
  | axisOutOfRange (axis : Int64) (shape : Shape)
  | sizeOfDynamic (shape : Shape)
  | stridesOfDynamic (shape : Shape)
  | invalidShape (shape : Shape)
  | assertedDims (dims : List Int64) (why : ShapeMismatch)
  | assertedRank (rank : Int64) (why : ShapeMismatch)
  -- tensors
  | zerosOfDynamic (why : ShapeMismatch)
  | flatCount (count : Nat) (shape : Shape)
  | reshapeMismatch (src dst : Shape)
  | indexCount (count : Nat) (shape : Shape)
  | indexOutOfBounds (indices : List Int64) (shape : Shape)
  | sliceOutOfBounds (offsets sizes : List Int64) (shape : Shape)
  | insertMismatch (why : ShapeMismatch)
  | convRank (input filter output : Shape)
  | convShapes (input filter output : Shape)
  | convTooSmall (input output : Shape) (height width : Int64)
  -- building operations
  | operandTypes (kind : Program.Kind) (lhs rhs : Program.Ty)
  | cannotWiden (src dst : Element)
  | applyResults (map : Affine.Map)
  | minResults (map : Affine.Map)
  | affineOperands (map : Affine.Map) (wanted : Int64) (count : Nat)
  | affineOperandType (i : Nat) (ty : Program.Ty)
  | tensorAxis (axis : Int64) (ty : Program.Ty)
  | groupsOrder (groups : List (List Int64)) (rank : Nat)
  | groupsCover (groups : List (List Int64)) (rank : Nat)
  | expandGroups (groups : List (List Int64)) (ty : Program.Ty)
  | expandAxis (axis : Nat) (ty : Program.Ty) (shape : Shape)
  | sliceCounts (kind : Program.Kind) (shape : Shape) (offsets sizes : Nat)
  | sliceSize (kind : Program.Kind) (shape : Shape) (size : Int64) (axis : Nat)
  | sliceBounds (kind : Program.Kind) (shape : Shape) (axis : Nat) (offset size : Int64)
  | insertTypes (src dst : Program.Ty)
  | convOperand (ty : Program.Ty)
  | genericMaps (maps operands : Nat)
  | genericMapArguments (i : Nat) (map : Affine.Map) (loops symbols : Nat)
  | genericMapRank (i : Nat) (map : Affine.Map) (rank : Nat)
  | genericYields (count outputs : Nat)
  | loopBound (ty : Program.Ty)
  -- editing programs
  | bodyOwned (kind owner : Program.Kind)
  | alreadyPlaced (kind : Program.Kind)
  | notInBlock (kind : Program.Kind)
  | noInsertionPoint (kind : Program.Kind)
  | insertionPointMoved (kind : Program.Kind)
  | restoreItself
  | replaceType (src dst : Program.Ty)
  | replaceCount (kind : Program.Kind) (results values : Nat)
  | erasedTwice (kind : Program.Kind)
  | stillUsed (kind : Program.Kind) (result : Nat) (user : Program.Kind)
  | mappingCount (src dst : Nat)
  -- evaluating programs
  | argumentCount (func : String) (wanted count : Nat)
  | argumentShape (i : Nat) (shape : Shape) (ty : Program.Ty)
  | noTerminator
  | undefinedValue (value : String)
  | arithTypes (kind : Program.Kind) (lhs rhs : Element)
  | expandDynamic (why : ShapeMismatch)
  | unsupported (kind : Program.Kind)
  | loopStep (step : Int64)
  | loopRange (dim : Nat)
  | loopNotPlain (dim : Nat)
  -- convolutions
  | outputMismatch (ty : Program.Ty) (problem : String)
  deriving Repr

namespace Fault

/-- The message of a broken rule; a stuck step has none. -/
def message : Fault → Option String
  | stuck _ => none
  | quotientDivisor c => some s!"ir.FloorDiv: divisor must be positive, got {Text.word c}"
  | remainderDivisor c => some s!"ir.Mod: divisor must be positive, got {Text.word c}"
  | unknownOperation e => some s!"ir.EvalAffine: invalid expression {e.text}"
  | dimOutOfRange p n =>
    some s!"ir.NewAffineMap: d{Text.word p} out of range for {Text.word n} dims"
  | symOutOfRange p n =>
    some s!"ir.NewAffineMap: s{Text.word p} out of range for {Text.word n} symbols"
  | mapArguments m d s =>
    some s!"AffineMap.Eval({m.text}): got {Text.count d} dims and {Text.count s} symbols"
  | unknownSize e =>
    some s!"unknown dtype {Text.quoted e.name} ({Text.count e.number}) in DType.GoType"
  | dimNotPositive s =>
    some s!"shapes.Make({s.text}): cannot create a shape with an axis with dimension <= 0"
  | axisOutOfRange a s =>
    some (s!"Shape.Dim({Text.word a}) out-of-bounds for rank {Text.count s.rank} " ++
      s!"(shape={s.text})")
  | sizeOfDynamic s => some s!"Shape.Size() of non-static shape {s.text}"
  | stridesOfDynamic s => some s!"Shape.Strides() of non-static shape {s.text}"
  | invalidShape s => some s!"ir.TensorType({s.text}): invalid shape"
  | assertedDims ds why => some s!"shapes.AssertDims({Text.words ds}): {why.message}"
  | assertedRank n why => some s!"shapes.AssertRank({Text.word n}): {why.message}"
  | zerosOfDynamic why => some s!"interp.Zeros: {why.message}"
  | flatCount n s => some s!"interp.FromFlat: {Text.count n} values for shape {s.text}"
  | reshapeMismatch s t => some s!"interp: cannot reshape {s.text} to {t.text}"
  | indexCount n s => some s!"interp: {Text.count n} indices for tensor of shape {s.text}"
  | indexOutOfBounds is s =>
    some s!"interp: index {Text.words is} out-of-bounds for shape {s.text}"
  | sliceOutOfBounds os zs s =>
    some (s!"slice offsets {Text.words os} and sizes {Text.words zs} " ++
      s!"out-of-bounds for shape {s.text}")
  | insertMismatch why => some s!"tensor.insert_slice: {why.message}"
  | convRank i f o =>
    some s!"conv2d: operands must have rank 4, got {i.text}, {f.text} and {o.text}"
  | convShapes i f o =>
    some s!"conv2d: incompatible shapes input={i.text}, filter={f.text}, output={o.text}"
  | convTooSmall i o h w =>
    some (s!"conv2d: input {i.text} too small for output {o.text} " ++
      s!"(needs {Text.word h}x{Text.word w})")
  | operandTypes k l r =>
    some s!"ir: {k.name} with different operand types {l.text} and {r.text}"
  | cannotWiden s d => some s!"ir.Widen: cannot widen {s.name} to {d.name}"
  | applyResults m => some s!"ir.AffineApply: map {m.text} must have exactly one result"
  | minResults m => some s!"ir.AffineMin: map {m.text} has no results"
  | affineOperands m n k =>
    some s!"ir: affine map {m.text} takes {Text.word n} operands, got {Text.count k}"
  | affineOperandType i t =>
    some s!"ir: affine operand #{Text.count i} must be an index, got {t.text}"
  | tensorAxis a t => some s!"ir.TensorDim: invalid axis {Text.word a} for {t.text}"
  | groupsOrder gs r =>
    some s!"ir: invalid reassociation {Text.groups gs} for rank {Text.count r}"
  | groupsCover gs r =>
    some s!"ir: reassociation {Text.groups gs} doesn't cover rank {Text.count r}"
  | expandGroups gs t =>
    some s!"ir.ExpandShape: reassociation {Text.groups gs} doesn't match source {t.text}"
  | expandAxis a t s =>
    some s!"ir.ExpandShape: cannot expand axis {Text.count a} of {t.text} to {s.text}"
  | sliceCounts k s o z =>
    some (s!"ir: {k.name} of {s.text} with {Text.count o} offsets " ++
      s!"and {Text.count z} sizes")
  | sliceSize k s z a =>
    some (s!"ir: {k.name} of {s.text} with non-positive size {Text.word z} " ++
      s!"at axis {Text.count a}")
  | sliceBounds k s a o z =>
    some (s!"ir: {k.name} of {s.text} out-of-bounds at axis {Text.count a}: " ++
      s!"offset {Text.word o}, size {Text.word z}")
  | insertTypes s d =>
    some s!"ir.InsertSlice: source {s.text} incompatible with destination {d.text}"
  | convOperand t => some s!"ir.Conv2D: operands must be rank-4 tensors, got {t.text}"
  | genericMaps m n =>
    some s!"ir.Generic: {Text.count m} indexing maps for {Text.count n} operands"
  | genericMapArguments i m l s =>
    some (s!"ir.Generic: map #{Text.count i} {m.text} must have {Text.count l} dims " ++
      s!"and {Text.count s} symbols")
  | genericMapRank i m r =>
    some (s!"ir.Generic: map #{Text.count i} {m.text} doesn't match operand rank " ++
      Text.count r)
  | genericYields n o =>
    some s!"ir.Generic: body yields {Text.count n} values for {Text.count o} outputs"
  | loopBound t => some s!"ir.For: bounds and step must be index values, got {t.text}"
  | bodyOwned k o => some s!"ir: body block for {k.name} already owned by a {o.name}"
  | alreadyPlaced k => some s!"ir: inserting {k.name} that is already in a block"
  | notInBlock k => some s!"ir: {k.name} not found in its parent block"
  | noInsertionPoint k => some s!"ir: insertion point not set while creating {k.name}"
  | insertionPointMoved k =>
    some s!"ir: insertion point op {k.name} is not in the insertion block"
  | restoreItself => some "ir: Func.RestoreFrom(itself)"
  | replaceType s d =>
    some s!"ir: cannot replace value of type {s.text} with value of type {d.text}"
  | replaceCount k r v =>
    some (s!"ir: replacing {k.name} with {Text.count r} results " ++
      s!"by {Text.count v} values")
  | erasedTwice k => some s!"ir: {k.name} erased twice"
  | stillUsed k i u =>
    some s!"ir: erasing {k.name} whose result #{Text.count i} is still used by {u.name}"
  | mappingCount a b =>
    some s!"ir: Mapping.MapAll with {Text.count a} and {Text.count b} values"
  | argumentCount f n k =>
    some s!"@{f} takes {Text.count n} arguments, got {Text.count k}"
  | argumentShape i s t =>
    some s!"argument #{Text.count i} has shape {s.text}, expected {t.text}"
  | noTerminator => some "block without terminator"
  | undefinedValue v => some s!"value {v} used before being defined"
  | arithTypes k a b => some s!"{k.name} with different dtypes {a.name} and {b.name}"
  | expandDynamic why =>
    some s!"tensor.expand_shape to a dynamic shape is not supported: {why.message}"
  | unsupported k => some s!"op {k.name} not supported by the interpreter"
  | loopStep n => some s!"scf.for with non-positive step {Text.word n}"
  | loopRange d =>
    some s!"linalg.generic: cannot infer the range of loop d{Text.count d} from the operands"
  | loopNotPlain d =>
    some (s!"linalg.generic: loop d{Text.count d} is not the plain index " ++
      "of any operand axis")
  | outputMismatch t p =>
    some s!"sconv.Reformulate: output {t.text} doesn't match the problem {p}"

end Fault

end ConvNest
