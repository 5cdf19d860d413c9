/-
# Programs as graphs

A program is a graph of operations, values, blocks and functions, each named by a number.  An
operation has operands and results, and may own a body: a block of operations with arguments of its
own.  A value is a result of an operation or an argument of a block, and knows the operands that use
it, in the order in which they came to use it.

The graph keeps everything that was ever built.  An erased operation stays, marked as erased and
outside of every block, so that what still refers to it can tell.

Nesting is followed at most as deep as there are operations (`walk`, `ancestors`): a body is created
before the operations in it, so no chain of bodies is longer.
-/
import ConvNest.Program.Attr
import ConvNest.Program.Kind
import ConvNest.Program.Ty

namespace ConvNest.Program

/-- The name of an operation. -/
structure OpId where
  idx : Nat
  deriving DecidableEq, Hashable, Repr, Inhabited

/-- The name of a value. -/
structure ValueId where
  idx : Nat
  deriving DecidableEq, Hashable, Repr, Inhabited

/-- The name of a block. -/
structure BlockId where
  idx : Nat
  deriving DecidableEq, Hashable, Repr, Inhabited

/-- The name of a function. -/
structure FuncId where
  idx : Nat
  deriving DecidableEq, Hashable, Repr, Inhabited

/-- An operand of an operation. -/
structure Use where
  op : OpId
  index : Nat
  deriving DecidableEq, Repr, Inhabited

/-- Where a value is defined. -/
inductive Owner where
  | result (op : OpId)
  | argument (block : BlockId)
  deriving DecidableEq, Repr, Inhabited

/-- A value. -/
structure Value where
  ty : Ty
  owner : Owner
  /-- Its position among the results or arguments. -/
  index : Nat
  /-- The operands that are this value, oldest first. -/
  uses : List Use
  deriving Repr, Inhabited

/-- An operation. -/
structure Op where
  kind : Kind
  operands : List ValueId
  results : List ValueId
  attr : Attr
  body : Option BlockId
  /-- The block that holds the operation. -/
  parent : Option BlockId
  erased : Bool
  deriving Repr, Inhabited

/-- A list of operations with arguments. -/
structure Block where
  args : List ValueId
  ops : List OpId
  /-- The operation whose body it is. -/
  parentOp : Option OpId
  /-- The function whose body it is. -/
  func : Option FuncId
  deriving Repr, Inhabited

/-- A named body. -/
structure Func where
  name : String
  body : Option BlockId
  deriving Repr, Inhabited

/-- All operations, values, blocks and functions ever built. -/
structure Graph where
  ops : Array Op
  values : Array Value
  blocks : Array Block
  funcs : Array Func
  deriving Repr, Inhabited

namespace Graph

/-- The empty graph. -/
def empty : Graph := ⟨#[], #[], #[], #[]⟩

/-- The operation of a name. -/
def op (g : Graph) (i : OpId) : Op := g.ops.getD i.idx default

/-- The value of a name. -/
def value (g : Graph) (i : ValueId) : Value := g.values.getD i.idx default

/-- The block of a name. -/
def block (g : Graph) (i : BlockId) : Block := g.blocks.getD i.idx default

/-- The function of a name. -/
def func (g : Graph) (i : FuncId) : Func := g.funcs.getD i.idx default

/-- The type of a value. -/
def ty (g : Graph) (v : ValueId) : Ty := (g.value v).ty

/-- The kind of an operation. -/
def kind (g : Graph) (i : OpId) : Kind := (g.op i).kind

/-- Changes one operation. -/
def modifyOp (g : Graph) (i : OpId) (f : Op → Op) : Graph := { g with ops := g.ops.modify i.idx f }

/-- Changes one value. -/
def modifyValue (g : Graph) (i : ValueId) (f : Value → Value) : Graph :=
  { g with values := g.values.modify i.idx f }

/-- Changes one block. -/
def modifyBlock (g : Graph) (i : BlockId) (f : Block → Block) : Graph :=
  { g with blocks := g.blocks.modify i.idx f }

/-- Changes one function. -/
def modifyFunc (g : Graph) (i : FuncId) (f : Func → Func) : Graph :=
  { g with funcs := g.funcs.modify i.idx f }

/-! ## Structure -/

/-- The operation that defines a value, if it is not an argument. -/
def definingOp (g : Graph) (v : ValueId) : Option OpId :=
  match (g.value v).owner with
  | .result op => some op
  | .argument _ => none

/-- The block that holds the definition of a value. -/
def definingBlock (g : Graph) (v : ValueId) : Option BlockId :=
  match (g.value v).owner with
  | .result op => (g.op op).parent
  | .argument b => some b

/-- The operations in the body of an operation. -/
def bodyOps (g : Graph) (i : OpId) : List OpId :=
  match (g.op i).body with
  | some b => (g.block b).ops
  | none => []

/-- The operation around an operation. -/
def parentOp (g : Graph) (i : OpId) : Option OpId :=
  (g.op i).parent.bind fun b => (g.block b).parentOp

/-- The operations around an operation, innermost first, up to a number of them. -/
def ancestorsWithin (g : Graph) : Nat → OpId → List OpId
  | 0, _ => []
  | n + 1, i =>
    match g.parentOp i with
    | some p => p :: ancestorsWithin g n p
    | none => []

/-- The operations around an operation, innermost first. -/
def ancestors (g : Graph) (i : OpId) : List OpId := g.ancestorsWithin g.ops.size i

/-- Whether an operation is around another one, at any depth. -/
def isAncestor (g : Graph) (outer inner : OpId) : Bool := (g.ancestors inner).contains outer

/-- An operation and those nested in it up to a depth, each before those nested in it.  The bodies
of operations that `descend` rejects are left out. -/
def walkWithin (g : Graph) (descend : OpId → Bool) : Nat → OpId → List OpId
  | 0, i => [i]
  | n + 1, i =>
    i :: if descend i then (g.bodyOps i).flatMap (walkWithin g descend n) else []

/-- An operation and those nested in it, each before those nested in it. -/
def walk (g : Graph) (descend : OpId → Bool) (i : OpId) : List OpId :=
  g.walkWithin descend g.ops.size i

/-- An operation and all those nested in it. -/
def subtree (g : Graph) (i : OpId) : List OpId := g.walk (fun _ => true) i

/-- The last operation of a block, if it is a terminator. -/
def terminator (g : Graph) (b : BlockId) : Option OpId :=
  match (g.block b).ops.getLast? with
  | some i => if (g.kind i).isTerminator then some i else none
  | none => none

/-- The function around a block, looked for at most a number of bodies outward. -/
def funcWithin (g : Graph) : Nat → BlockId → Option FuncId
  | 0, _ => none
  | n + 1, b =>
    match (g.block b).func with
    | some f => some f
    | none =>
      match (g.block b).parentOp with
      | some i =>
        match (g.op i).parent with
        | some outer => funcWithin g n outer
        | none => none
      | none => none

/-- The function that a block belongs to. -/
def funcOf (g : Graph) (b : BlockId) : Option FuncId := g.funcWithin (g.ops.size + 1) b

/-- The operations that use a value, each once, in the order of use. -/
def users (g : Graph) (v : ValueId) : List OpId :=
  ((g.value v).uses.map (·.op)).foldl (fun us u => if us.contains u then us else us ++ [u]) []

/-! ## Texts -/

/-- A value in messages: `arith.addi#0 : i32`, or `arg#1 : index`. -/
def valueText (g : Graph) (v : ValueId) : String :=
  let x := g.value v
  let owner := match x.owner with
    | .result i => (g.kind i).name
    | .argument _ => "arg"
  owner ++ "#" ++ Text.count x.index ++ " : " ++ x.ty.text

/-- An operation in messages: `scf.for(4 operands -> 1 results)`. -/
def opText (g : Graph) (i : OpId) : String :=
  let x := g.op i
  let counts := s!"{Text.count x.operands.length} operands -> {Text.count x.results.length} results"
  s!"{x.kind.name}({counts})"

end Graph

end ConvNest.Program
