/-
# Printed programs

A function is printed with one operation to a line, bodies indented.  Arguments are named
`%arg0, %arg1, ...` in the order in which they are printed, and results `%0, %1, ...` in the order
in which they are first mentioned; index constants carry their value in their name.

Printing is stuck at an operation that lacks the operands, results or attribute of its kind.
-/
import ConvNest.Program.View
import Std.Data.HashMap
import ConvNest.Text.Decimal

namespace ConvNest.Program

/-- The names given so far. -/
structure Names where
  table : Std.HashMap ValueId String
  args : Nat
  results : Nat
  deriving Inhabited

/-- A printing computation. -/
abbrev Print := EStateM Fault Names

namespace Print

/-- A new name for an argument. -/
def argName (v : ValueId) : Print String := do
  let s ← get
  let name := "%arg" ++ Text.count s.args
  set { s with table := s.table.insert v name, args := s.args + 1 }
  return name

/-- The name of a value, a new one for a result that has none. -/
def name (g : Graph) (v : ValueId) : Print String := do
  let s ← get
  match s.table[v]? with
  | some n => return n
  | none =>
    match (g.value v).owner with
    | .argument _ => return "<<unknown arg>>"
    | .result _ =>
      let n := match ← g.constIndex? v with
        | some c => "%c" ++ Text.word c ++ "_" ++ Text.count s.results
        | none => "%" ++ Text.count s.results
      set { s with table := s.table.insert v n, results := s.results + 1 }
      return n

/-- The names of values. -/
def names (g : Graph) (vs : List ValueId) : Print String := do
  return Text.commas (← vs.mapM (name g))

/-- The types of values. -/
def types (g : Graph) (vs : List ValueId) : String := Text.commas (vs.map fun v => (g.ty v).text)

/-- A known index as it is, and the name of the value of another one. -/
def index (g : Graph) : Index → Print String
  | .static n => pure (Text.word n)
  | .dynamic v => name g v

/-- An argument with its type. -/
def typedArg (g : Graph) (v : ValueId) : Print String := do
  return (← argName v) ++ ": " ++ (g.ty v).text

/-- A map as it is printed in an operation. -/
def map (m : Affine.Map) : String := "affine_map<" ++ m.text ++ ">"

/-- The indentation of a nesting depth. -/
def indent (depth : Nat) : String := String.join (List.replicate depth "  ")

/-- A constant. -/
def constant (g : Graph) (i : OpId) : Print String := do
  match (g.op i).attr with
  | .constant n x =>
    let t := g.ty (← g.result i 0)
    let v := if t.isScalar && !t.elem.isInteger then Text.general x else Text.word n
    return s!"{(g.kind i).name} {v} : {t.text}\n"
  | _ => throw (.stuck .kind)

/-- A computation of indices. -/
def affine (g : Graph) (i : OpId) : Print String := do
  match (g.op i).attr with
  | .affine m =>
    let ns ← names g (g.op i).operands
    return s!"{(g.kind i).name} {map m}({ns})\n"
  | _ => throw (.stuck .kind)

/-- The dimension of a tensor. -/
def tensorDim (g : Graph) (i : OpId) : Print String := do
  let t ← g.operand i 0
  let n ← name g t
  match (g.op i).attr with
  | .axis a => return s!"{(g.kind i).name} {n}, {Text.word a} : {(g.ty t).text}\n"
  | _ => throw (.stuck .kind)

/-- A reshape. -/
def reshape (g : Graph) (i : OpId) : Print String := do
  let t ← g.operand i 0
  let n ← name g t
  match (g.op i).attr with
  | .reshape gs =>
    let r ← g.result i 0
    return s!"{(g.kind i).name} {n} {Text.groups gs} : {(g.ty t).text} into {(g.ty r).text}\n"
  | _ => throw (.stuck .kind)

/-- A slice. -/
def slice (g : Graph) (i : OpId) : Print String := do
  let (offsets, sizes) ← g.offsetsAndSizes i
  let ones := Text.commas (offsets.map fun _ => "1")
  let src ← g.operand i 0
  let kind := (g.kind i).name
  match ← g.sliceDest i with
  | some dest =>
    let s ← name g src
    let d ← name g dest
    let os := Text.commas (← offsets.mapM (index g))
    let zs := Text.commas (← sizes.mapM (index g))
    let types := s!"{(g.ty src).text} into {(g.ty dest).text}"
    return s!"{kind} {s} into {d}[{os}] [{zs}] [{ones}] : {types}\n"
  | none =>
    let s ← name g src
    let os := Text.commas (← offsets.mapM (index g))
    let zs := Text.commas (← sizes.mapM (index g))
    let r ← g.result i 0
    return s!"{kind} {s}[{os}] [{zs}] [{ones}] : {(g.ty src).text} to {(g.ty r).text}\n"

/-- A convolution. -/
def conv (g : Graph) (i : OpId) : Print String := do
  let (strides, dilations) ← g.convAttr i
  let ins ← firstItems (g.op i).operands 2
  let insText ← names g ins
  let out ← g.operand i 2
  let outText ← name g out
  let r ← g.result i 0
  return s!"{(g.kind i).name} \x7bdilations = {dilations.text}, strides = {strides.text}\x7d " ++
    s!"ins({insText} : {types g ins}) outs({outText} : {(g.ty out).text}) -> {(g.ty r).text}\n"

/-- An operation that has no form of its own. -/
def plain (g : Graph) (i : OpId) : Print String := do
  let x := g.op i
  let operands ←
    if x.operands.isEmpty then pure ""
    else do
      let ns ← names g x.operands
      pure (" " ++ ns ++ " : " ++ types g x.operands)
  let results :=
    if x.results.isEmpty || x.kind.isTerminator then "" else " -> " ++ types g x.results
  return x.kind.name ++ operands ++ results ++ "\n"

/-- A generic operation, whose body is printed by `block`. -/
def generic (g : Graph) (block : BlockId → Print String) (pad : String) (i : OpId) :
    Print String := do
  let a ← g.genericAttr i
  let maps := Text.commas (a.maps.map map)
  let iterators := Text.commas (a.iterators.map fun t => "\"" ++ t.name ++ "\"")
  let ins ← g.inputs i
  let insText ← names g ins
  let outs ← g.outputs i
  let outsText ← names g outs
  let symbols ← g.symbols i
  let symsText ←
    if symbols.isEmpty then pure ""
    else do
      let ns ← names g symbols
      pure (" symbols(" ++ ns ++ ")")
  let b ← g.bodyId i
  let args ← (g.block b).args.mapM (typedArg g)
  let body ← block b
  return s!"{(g.kind i).name} \x7bindexing_maps = [{maps}], iterator_types = [{iterators}]\x7d " ++
    s!"ins({insText} : {types g ins}) outs({outsText} : {types g outs}){symsText} \x7b\n" ++
    s!"{pad}^bb0({Text.commas args}):\n" ++ body ++
    s!"{pad}\x7d -> {types g (g.op i).results}\n"

/-- The carried values of a loop, each with its initial value.  A loop that lacks carried values
leaves their places empty. -/
def carriedPairs (g : Graph) : List ValueId → List ValueId → Print (List String)
  | [], inits => pure (inits.map fun _ => "")
  | _ :: _, [] => throw (.stuck .position)
  | arg :: args, init :: inits => do
    let a ← argName arg
    let n ← name g init
    return (a ++ " = " ++ n) :: (← carriedPairs g args inits)

/-- A loop, whose body is printed by `block`. -/
def forLoop (g : Graph) (block : BlockId → Print String) (pad : String) (i : OpId) :
    Print String := do
  let iv ← argName (← g.inductionVar i)
  let bs ← g.bounds i
  let lower ← name g bs.lower
  let upper ← name g bs.upper
  let step ← name g bs.step
  let carried ←
    if g.carriedCount i ≤ 0 then pure ""
    else do
      let pairs ← carriedPairs g (← g.carried i) (← g.inits i)
      pure s!" iter_args({Text.commas pairs}) -> ({types g (g.op i).results})"
  let body ← block (← g.bodyId i)
  return s!"{(g.kind i).name} {iv} = {lower} to {upper} step {step}{carried} \x7b\n" ++ body ++
    s!"{pad}\x7d\n"

/-- An operation at a nesting depth, with its bodies printed by `block`. -/
def op (g : Graph) (block : BlockId → Print String) (depth : Nat) (i : OpId) : Print String := do
  let pad := indent depth
  let x := g.op i
  let results ← if x.results.isEmpty then pure "" else do
    let ns ← names g x.results
    pure (ns ++ " = ")
  let rest ← match x.kind with
    | .constant => constant g i
    | .affineApply | .affineMin => affine g i
    | .tensorDim => tensorDim g i
    | .collapse | .expand => reshape g i
    | .extractSlice | .insertSlice => slice g i
    | .conv => conv g i
    | .generic => generic g block pad i
    | .forLoop => forLoop g block pad i
    | _ => plain g i
  return pad ++ results ++ rest

/-- The operations of a block, nested at most `fuel` deep. -/
def block (g : Graph) : Nat → Nat → BlockId → Print String
  | 0, _, _ => throw (.stuck .endless)
  | fuel + 1, depth, b => do
    return String.join (← (g.block b).ops.mapM (op g (block g fuel (depth + 1)) depth))

/-- A function. -/
def func (g : Graph) (f : FuncId) : Print String := do
  let b ← present (g.func f).body
  let args ← (g.block b).args.mapM (typedArg g)
  let results := Text.commas ((← g.resultTypes f).map Ty.text)
  let body ← block g (g.ops.size + 1) 1 b
  return s!"func.func @{(g.func f).name}({Text.commas args}) -> ({results}) \x7b\n" ++
    body ++ "\x7d\n"

end Print

/-- The text of a function. -/
def Graph.print (g : Graph) (f : FuncId) : Except Fault String :=
  match (Print.func g f).run ⟨∅, 0, 0⟩ with
  | .ok s _ => .ok s
  | .error e _ => .error e

end ConvNest.Program
