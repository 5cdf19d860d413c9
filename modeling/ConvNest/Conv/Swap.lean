/-
# Swapping loops

Two loops, one directly inside the other, can be exchanged if they carry the same values and the
inner one adds to them only by inserting slices.  `swapPlan` checks the structure without changing
anything; `swapLoops` then builds the exchanged loops and puts them in place of the old ones.

Operations of the outer body that depend on its induction variable move into the new inner loop, and
the others into the new outer loop.
-/
import ConvNest.Conv.Blocking
import ConvNest.KeySet

namespace ConvNest.Conv

open Program

/-- Two loops to exchange. -/
structure SwapPlan where
  outer : OpId
  inner : OpId
  /-- Operations that move into the new inner loop. -/
  sunk : List OpId
  /-- Operations that move into the new outer loop. -/
  hoisted : List OpId
  deriving DecidableEq, Repr, Inhabited

/-- A live loop that carries values. -/
def carryingLoop (g : Graph) : Option OpId → Inquiry OpId
  | none => throw (.disorder .notLoops)
  | some i => do
    Inquiry.demand (!(g.op i).erased && g.kind i == .forLoop) (.disorder .notLoops)
    Inquiry.demand (g.carriedCount i != 0) (.disorder .nothingCarried)
    return i

/-- Whether a value is defined inside of an operation. -/
def definedIn (g : Graph) (outer : OpId) (v : ValueId) : Bool :=
  let owner := match (g.value v).owner with
    | .result i => some i
    | .argument b => (g.block b).parentOp
  match owner with
  | some i => i == outer || g.isAncestor outer i
  | none => false

/-- Checks that the outer loop does nothing with the carried values but pass them through the inner
loop. -/
def checkThreading (g : Graph) (outer inner : OpId) : Inquiry Unit := do
  let yields ← g.yielded outer
  Inquiry.demand (yields == (g.op inner).results) (.disorder .outerYield)
  let carried ← g.carried outer
  let inits ← g.inits inner
  Inquiry.demand (inits == carried) (.disorder .innerInits)
  carried.forM fun v => (g.value v).uses.forM fun u =>
    Inquiry.demand (u.op == inner) (.disorder (.carriedUsed (g.kind u.op)))

/-- Checks that the bounds of the inner loop do not depend on the outer one. -/
def checkBounds (g : Graph) (outer inner : OpId) : Inquiry Unit := do
  let b ← g.bounds inner
  [b.lower, b.upper, b.step].forM fun v =>
    Inquiry.demand (!definedIn g outer v) (.disorder .innerBounds)

/-- Whether an operation, or one nested in it, uses one of the values. -/
def usesAny (g : Graph) (values : KeySet ValueId) (i : OpId) : Bool :=
  (g.subtree i).any fun j => values.containsAny (g.op j).operands

/-- Splits operations into those that depend on the given values and the others. -/
def splitDependent (g : Graph) : KeySet ValueId → List OpId → List OpId × List OpId
  | _, [] => ([], [])
  | dependent, i :: rest =>
    if usesAny g dependent i then
      let (sunk, hoisted) := splitDependent g (dependent.insertMany (g.op i).results) rest
      (i :: sunk, hoisted)
    else
      let (sunk, hoisted) := splitDependent g dependent rest
      (sunk, i :: hoisted)

/-- The carried values that an operation inserts a slice into, by their positions. -/
def accumulatesInto (g : Graph) (carried : List ValueId) (i : OpId) : Except Fault (List Nat) :=
  if g.kind i ≠ .insertSlice ∨ carried.isEmpty then .ok []
  else do
    let dest ← g.operand i 1
    return carried.zipIdx.filterMap fun p => if p.1 = dest then some p.2 else none

/-- The accumulations of a loop: the operation, and the position of the carried value. -/
def accumulations (g : Graph) (i : OpId) : Except Fault (List (OpId × Nat)) := do
  let carried ← g.carried i
  let found ← (g.bodyOps i).mapM fun j => do
    return (← accumulatesInto g carried j).map fun k => (j, k)
  return found.flatten

/-- Checks that a loop has exactly one accumulation, which it yields, and yields only tensors. -/
def checkAccumulation (g : Graph) (inner : OpId) : Inquiry Unit := do
  match ← accumulations g inner with
  | [(acc, k)] =>
    let yields ← g.yielded inner
    let yielded ← (itemAt yields k : Except Fault ValueId)
    let result ← g.result acc 0
    Inquiry.demand (yielded == result) (.disorder (.accumulationYield k))
    yields.zipIdx.forM fun p =>
      Inquiry.demand (g.ty p.1).isTensor (.disorder (.yieldType (g.ty p.1) p.2))
  | found => throw (.disorder (.accumulations found.length))

/-- Checks that two loops can be exchanged. -/
def swapPlan (g : Graph) (outer inner : Option OpId) : Inquiry SwapPlan := do
  let outer ← carryingLoop g outer
  let inner ← carryingLoop g inner
  Inquiry.demand (g.parentOp inner == some outer) (.disorder .notNested)
  Inquiry.demand (g.carriedCount inner == g.carriedCount outer)
    (.disorder (.carriedCounts (g.carriedCount outer) (g.carriedCount inner)))
  let ops := g.bodyOps outer
  Inquiry.demand (2 ≤ ops.length && ops[ops.length - 2]? == some inner) (.disorder .notLast)
  checkThreading g outer inner
  checkBounds g outer inner
  let (sunk, hoisted) :=
    splitDependent g (.ofList [← g.inductionVar outer]) (ops.take (ops.length - 2))
  checkAccumulation g inner
  return ⟨outer, inner, sunk, hoisted⟩

/-- The body of the new inner loop. -/
def innerBody (plan : SwapPlan) (m : Mapping) (iv : ValueId) (carried : List ValueId) :
    Edit (List ValueId × Mapping) := do
  let g ← Edit.graph
  let m := m.insert (← g.inductionVar plan.outer) iv
  let m ← m.insertAll (← g.carried plan.inner) carried
  let m ← Edit.cloneAll plan.sunk m
  let m ← Edit.cloneAll ((g.bodyOps plan.inner).filter fun i => !(g.kind i).isTerminator) m
  return ((← g.yielded plan.inner).map m.lookup, m)

/-- The body of the new outer loop: what moves into it, and the new inner loop. -/
def outerBody (plan : SwapPlan) (iv : ValueId) (carried : List ValueId) :
    Edit (List ValueId × OpId × Mapping) := do
  let g ← Edit.graph
  let m := Mapping.empty.insert (← g.inductionVar plan.inner) iv
  let m ← Edit.cloneAll plan.hoisted m
  let b ← g.bounds plan.outer
  let (loop, m) ← Edit.forLoop b.lower b.upper b.step carried (innerBody plan m)
  return ((← Edit.op loop).results, loop, m)

/-- Exchanges two loops as planned.  Answers the new outer and inner loop, and the copies of what
was in the old ones. -/
def exchange (plan : SwapPlan) : Edit (OpId × OpId × Mapping) := do
  Edit.setPoint (← Edit.pointBefore plan.outer)
  let g ← Edit.graph
  let b ← g.bounds plan.inner
  let (outer, inner, m) ←
    Edit.forLoop b.lower b.upper b.step (← g.inits plan.outer) (outerBody plan)
  Edit.replaceOp plan.outer (← Edit.op outer).results
  return (outer, inner, m)

/-- Exchanges the first two items of a list. -/
def exchangeFirst {α : Type} : List α → List α
  | a :: b :: rest => b :: a :: rest
  | xs => xs

/-- Exchanges the innermost two loops of a nest. -/
def swapLoops (n : LoopNest) : Attempt LoopNest := do
  match n.loops, n.kernel with
  | inner :: outer :: rest, some kernel =>
    let g ← (Edit.graph : Edit Graph)
    let plan ← (swapPlan g outer inner : Inquiry SwapPlan)
    (Inquiry.demand (g.isAncestor plan.inner kernel) (.disorder (.kernelOutside (g.kind kernel))) :
      Inquiry Unit)
    let (newOuter, newInner, m) ← (exchange plan : Edit _)
    return { n with
      kernel := m.lookupOp kernel
      loops := some newInner :: some newOuter :: rest
      loopDims := exchangeFirst n.loopDims }
  | loops, _ => throw (.disorder (.missingLoops loops.length))

end ConvNest.Conv
