/-
# Evaluating programs

A function is evaluated on tensors by running the operations of its body in order.  Every value that
an operation defines is remembered, also beyond the body that it is defined in, and a body that runs
again overwrites the values of its last run.

A loop runs its body while the induction variable is below the upper bound.  The variable is a word
that wraps around, so a loop may pass its upper bound and go on; after as many iterations as there
are words it never ends, and the evaluation is stuck.

A generic operation runs its body at every point of its iteration domain, in row-major order, with
the elements that the indexing maps pick there, and stores what the body yields.
-/
import ConvNest.Affine.MapEval
import ConvNest.Program.View
import ConvNest.Tensor.Conv
import ConvNest.Tensor.Slice

namespace ConvNest.Program

/-- A value at run time. -/
inductive Datum where
  | tensor (t : Tensor)
  | scalar (s : Scalar)
  | index (n : Int64)
  deriving Inhabited

/-- The values at run time of the values of a program, each under the number of its name. -/
abbrev Env := Std.TreeMap Nat Datum

/-- An evaluation. -/
abbrev Eval := EStateM Fault Env

namespace Eval

/-- The datum of a value. -/
def datum (g : Graph) (v : ValueId) : Eval Datum := do
  match (← get)[v.idx]? with
  | some d => return d
  | none => throw (.undefinedValue (g.valueText v))

/-- The tensor of a value. -/
def tensor (g : Graph) (v : ValueId) : Eval Tensor := do
  match ← datum g v with
  | .tensor t => return t
  | _ => throw (.stuck .kind)

/-- The scalar of a value. -/
def scalar (g : Graph) (v : ValueId) : Eval Scalar := do
  match ← datum g v with
  | .scalar s => return s
  | _ => throw (.stuck .kind)

/-- The word of a value. -/
def index (g : Graph) (v : ValueId) : Eval Int64 := do
  match ← datum g v with
  | .index n => return n
  | _ => throw (.stuck .kind)

/-- The word of an index. -/
def word (g : Graph) : Index → Eval Int64
  | .static n => pure n
  | .dynamic v => index g v

/-- Defines a value. -/
def define (v : ValueId) (d : Datum) : Eval Unit := modify fun e => e.insert v.idx d

/-- Defines values, one by one; there may not be more data than values. -/
def defineAll : List ValueId → List Datum → Eval Unit
  | _, [] => pure ()
  | [], _ :: _ => throw (.stuck .position)
  | v :: vs, d :: ds => do
    define v d
    defineAll vs ds

/-! ## Operations without a body -/

/-- A constant. -/
def constant (g : Graph) (i : OpId) : Eval Unit := do
  match (g.op i).attr with
  | .constant n x =>
    let r ← g.result i 0
    let t := g.ty r
    if t.isIndex then define r (.index n)
    else if t.elem.isFloat then define r (.scalar (.ofFloat t.elem x))
    else define r (.scalar (.ofInt t.elem n))
  | _ => throw (.stuck .kind)

/-- The result of an operation on two scalars. -/
def arith (kind : Kind) (x y : Scalar) : Except Fault Scalar :=
  if x.elem ≠ y.elem then .error (.arithTypes kind x.elem y.elem)
  else .ok <| match kind with
    | .addInt => x.addInt y
    | .mulInt => x.mulInt y
    | .addFloat => x.addFloat y
    | _ => x.mulFloat y

/-- An operation on two scalars. -/
def binary (g : Graph) (i : OpId) : Eval Unit := do
  let r ← g.result i 0
  let x ← scalar g (← g.operand i 0)
  let y ← scalar g (← g.operand i 1)
  define r (.scalar (← arith (g.kind i) x y))

/-- A conversion of a scalar. -/
def widen (g : Graph) (i : OpId) : Eval Unit := do
  let x ← scalar g (← g.operand i 0)
  let r ← g.result i 0
  let e := (g.ty r).elem
  let y := match g.kind i with
    | .extendInt => x.extendInt e
    | .intToFloat => x.intToFloat e
    | _ => x.extendFloat e
  define r (.scalar y)

/-- The least of some words. -/
def least : List Int64 → Except Fault Int64
  | [] => .error (.stuck .position)
  | n :: ns => .ok (ns.foldl min n)

/-- A computation of indices. -/
def affine (g : Graph) (i : OpId) : Eval Unit := do
  match (g.op i).attr with
  | .affine m =>
    let ns ← (g.op i).operands.mapM (index g)
    let vs ← m.eval (← firstItems ns m.dims.toInt) (← itemsAfter ns m.dims.toInt)
    let n ← least vs
    define (← g.result i 0) (.index n)
  | _ => throw (.stuck .kind)

/-- The dimension of a tensor. -/
def tensorDim (g : Graph) (i : OpId) : Eval Unit := do
  let t ← tensor g (← g.operand i 0)
  let r ← g.result i 0
  match (g.op i).attr with
  | .axis a => define r (.index (← t.shape.dimAt a).toWord)
  | _ => throw (.stuck .kind)

/-- The sizes of groups of axes. -/
def groupSizes (dims : List Int64) (groups : List (List Int64)) : Except Fault (List Int64) :=
  groups.mapM fun axes => do return Shape.product (← axes.mapM (Affine.pick dims))

/-- Merges groups of axes. -/
def collapse (g : Graph) (i : OpId) : Eval Unit := do
  let t ← tensor g (← g.operand i 0)
  match (g.op i).attr with
  | .reshape groups =>
    let dims ← groupSizes t.dims groups
    let r ← g.result i 0
    define r (.tensor (← t.reshape (← Shape.make t.elem dims)))
  | _ => throw (.stuck .kind)

/-- Splits axes to the shape of the result, which has to be static. -/
def expand (g : Graph) (i : OpId) : Eval Unit := do
  let t ← tensor g (← g.operand i 0)
  let r ← g.result i 0
  let s := (g.ty r).shape
  s.checkStatic.mapError Fault.expandDynamic
  define r (.tensor (← t.reshape s))

/-- The words of offsets and sizes, taken in turn.  Sizes without an offset are zero. -/
def sliceWords (g : Graph) : List Index → List Index → Eval (List Int64 × List Int64)
  | [], zs => pure ([], zs.map fun _ => 0)
  | o :: os, zs => do
    let a ← word g o
    match zs with
    | [] => throw (.stuck .position)
    | z :: zs =>
      let b ← word g z
      let (as, bs) ← sliceWords g os zs
      return (a :: as, b :: bs)

/-- The slice of a tensor. -/
def extractSlice (g : Graph) (i : OpId) : Eval Unit := do
  let src ← tensor g (← g.operand i 0)
  let (os, zs) ← g.offsetsAndSizes i
  let (offsets, sizes) ← sliceWords g os zs
  let r ← g.result i 0
  define r (.tensor (← src.extractSlice offsets sizes))

/-- A tensor with a slice replaced. -/
def insertSlice (g : Graph) (i : OpId) : Eval Unit := do
  let src ← tensor g (← g.operand i 0)
  let dest ← tensor g (← g.operand i 1)
  let (os, zs) ← g.offsetsAndSizes i
  let (offsets, sizes) ← sliceWords g os zs
  let r ← g.result i 0
  define r (.tensor (← src.insertSlice dest offsets sizes))

/-- A convolution. -/
def conv (g : Graph) (i : OpId) : Eval Unit := do
  let (strides, dilations) ← g.convAttr i
  let r ← g.result i 0
  let input ← tensor g (← g.operand i 0)
  let filter ← tensor g (← g.operand i 1)
  let output ← tensor g (← g.operand i 2)
  define r (.tensor (← input.conv2d filter output strides dilations))

/-! ## Loops -/

/-- The number of words: a loop that runs longer never ends. -/
def wordCount : Nat := UInt64.size

/-- Runs a loop from a value of its variable on. -/
def loop (upper step : Int64) (body : Int64 → List Datum → Eval (List Datum)) :
    Nat → Int64 → List Datum → Eval (List Datum)
  | 0, _, _ => throw (.stuck .endless)
  | fuel + 1, iv, carried =>
    if iv < upper then do
      let next ← body iv carried
      loop upper step body fuel (iv + step) next
    else pure carried

/-- Gives the carried values of a loop their data; there may not be fewer data than values. -/
def bindCarried : List ValueId → List Datum → Eval Unit
  | [], _ => pure ()
  | _ :: _, [] => throw (.stuck .position)
  | v :: vs, d :: ds => do
    define v d
    bindCarried vs ds

/-- A loop, whose body is run by `block`. -/
def forLoop (g : Graph) (block : BlockId → Eval (List Datum)) (i : OpId) : Eval Unit := do
  let lower ← index g (← g.operand i 0)
  let upper ← index g (← g.operand i 1)
  let step ← index g (← g.operand i 2)
  if step ≤ 0 then throw (.loopStep step)
  let inits ← (← g.inits i).mapM (datum g)
  let args ← g.carried i
  let results ← loop upper step (fun iv carried => do
    define (← g.inductionVar i) (.index iv)
    bindCarried args carried
    block (← g.bodyId i)) wordCount lower inits
  defineAll (g.op i).results results

/-! ## Generic operations -/

/-- The sizes of loops, as far as they are known. -/
abbrev Ranges := List (Option Int64)

/-- Takes the size of each loop that is the plain index of an axis of an operand with the given
dimensions, unless it is known already. -/
def rangesOf (m : Affine.Map) (dims : List Int64) (ranges : Ranges) : Except Fault Ranges :=
  m.results.zipIdx.foldlM (fun ranges p =>
    match p.1 with
    | .dim d => do
      match ← Affine.pick ranges d with
      | some _ => return ranges
      | none => return ranges.set d.toInt.toNat (some (← itemAt dims p.2))
    | _ => .ok ranges) ranges

/-- The sizes of all loops, each from the first operand with an axis that it is the plain index
of.  A map without an operand is taken to index nothing. -/
def loopRanges (maps : List Affine.Map) (loops : Nat) (operands : List Tensor) :
    Except Fault (List Int64) := do
  let ranges ← maps.zipIdx.foldlM (fun ranges p =>
    rangesOf p.1 ((operands[p.2]?.map Tensor.dims).getD []) ranges) (List.replicate loops none)
  ranges.zipIdx.mapM fun p =>
    match p.1 with
    | some n => .ok n
    | none => .error (.loopRange p.2)

/-- The index of a point in an operand, if there is one for the map.  The first index is computed
before the operand is missed. -/
def indexIn (point syms : List Int64) (operand : Option Tensor) (m : Affine.Map) :
    Except Fault (List Int64) :=
  m.results.mapM fun e => do
    let n ← e.eval point syms
    if operand.isNone then throw (.stuck .position)
    return n

/-- Gives the arguments of the body the elements at the indices of a point, and answers the
indices.  An element is read before its argument is missed. -/
def bindElements (point syms : List Int64) :
    List Affine.Map → List ValueId → List Tensor → Eval (List (List Int64))
  | [], _, _ => pure []
  | m :: ms, args, operands => do
    let indices ← indexIn point syms operands.head? m
    match operands with
    | [] => throw (.stuck .position)
    | t :: ts =>
      let s ← t.scalarAt indices
      match args with
      | [] => throw (.stuck .position)
      | v :: vs =>
        define v (.scalar s)
        return indices :: (← bindElements point syms ms vs ts)

/-- Stores yielded scalars in the outputs, at the indices of the point.  Outputs beyond them
stay. -/
def storeYields : List Datum → List (List Int64) → List Tensor → Eval (List Tensor)
  | [], _, outs => pure outs
  | .scalar s :: ds, indices :: rest, t :: ts => do
    let t ← t.setScalar indices s
    return t :: (← storeYields ds rest ts)
  | .scalar _ :: _, _, _ => throw (.stuck .position)
  | _ :: _, _, _ => throw (.stuck .kind)

/-- One point of a generic operation. -/
def genericPoint (maps : List Affine.Map) (args : List ValueId) (inputs : List Tensor)
    (syms : List Int64) (body : Eval (List Datum)) (outs : List Tensor) (point : List Int64) :
    Eval (List Tensor) := do
  let indices ← bindElements point syms maps args (inputs ++ outs)
  let yields ← body
  storeYields yields (indices.drop inputs.length) outs

/-- A generic operation, whose body is run by `block`. -/
def generic (g : Graph) (block : BlockId → Eval (List Datum)) (i : OpId) : Eval Unit := do
  let a ← g.genericAttr i
  let shaped ← g.shaped i
  let inputCount := (← g.inputs i).length
  let operands ← shaped.mapM (tensor g)
  let syms ← (← g.symbols i).mapM (index g)
  let sides ← loopRanges a.maps a.iterators.length operands
  let b ← g.bodyId i
  let args := (g.block b).args
  if a.maps.length < shaped.length then throw (.stuck .position)
  let step := genericPoint a.maps args (operands.take inputCount) syms (block b)
  let outs ← Box.foldM sides step (operands.drop inputCount)
  defineAll (g.op i).results (outs.map .tensor)

/-! ## Blocks and functions -/

/-- An operation, whose body is run by `block`. -/
def op (g : Graph) (block : BlockId → Eval (List Datum)) (i : OpId) : Eval Unit :=
  match g.kind i with
  | .constant => constant g i
  | .addInt | .mulInt | .addFloat | .mulFloat => binary g i
  | .extendInt | .extendFloat | .intToFloat => widen g i
  | .affineApply | .affineMin => affine g i
  | .tensorDim => tensorDim g i
  | .collapse => collapse g i
  | .expand => expand g i
  | .extractSlice => extractSlice g i
  | .insertSlice => insertSlice g i
  | .conv => conv g i
  | .generic => generic g block i
  | .forLoop => forLoop g block i
  | k => throw (.unsupported k)

/-- Runs operations up to the first terminator, and gives the data of its operands. -/
def ops (g : Graph) (block : BlockId → Eval (List Datum)) : List OpId → Eval (List Datum)
  | [] => throw .noTerminator
  | i :: rest =>
    if (g.kind i).isTerminator then (g.op i).operands.mapM (datum g)
    else do
      op g block i
      ops g block rest

/-- Runs a block, nested at most `fuel` deep. -/
def block (g : Graph) : Nat → BlockId → Eval (List Datum)
  | 0, _ => throw (.stuck .endless)
  | fuel + 1, b => ops g (block g fuel) (g.block b).ops

/-- Gives the parameters of a function its arguments. -/
def bindArguments (g : Graph) : Nat → List ValueId → List Tensor → Eval Unit
  | k, v :: vs, t :: ts => do
    let ty := g.ty v
    if !ty.isTensor || !ty.shape.compatible t.shape then throw (.argumentShape k t.shape ty)
    define v (.tensor t)
    bindArguments g (k + 1) vs ts
  | _, _, _ => pure ()

/-- Runs a function. -/
def func (g : Graph) (f : FuncId) (args : List Tensor) : Eval (List Tensor) := do
  let b ← present (g.func f).body
  let params := (g.block b).args
  if args.length ≠ params.length then
    throw (.argumentCount (g.func f).name params.length args.length)
  bindArguments g 0 params args
  (← block g (g.ops.size + 1) b).mapM fun
    | .tensor t => pure t
    | _ => throw (.stuck .kind)

end Eval

/-- The results of a function on the given arguments. -/
def Graph.run (g : Graph) (f : FuncId) (args : List Tensor) : Except Fault (List Tensor) :=
  match (Eval.func g f args).run ∅ with
  | .ok ts _ => .ok ts
  | .error e _ => .error e

end ConvNest.Program
