/-
# Editing programs

Programs are changed only by the operations of this file: they create, place, clone, rewire and
erase operations, keep the use lists, and report replacements and erasures.

An edit acts on an `Editor`: the graph, the insertion point at which new operations are placed, the
handles that follow the changes, and the journal of replacements and erasures.  A fault ends an edit
and keeps the editor as it was at the fault.
-/
import ConvNest.Fault
import ConvNest.Program.Handles
import ConvNest.Word
import Std.Data.TreeMap

namespace ConvNest.Program

/-- A position in a block: before an operation, or at the end. -/
structure InsertionPoint where
  block : Option BlockId
  before : Option OpId
  deriving DecidableEq, Repr, Inhabited

/-- A change that takes something away. -/
inductive Event where
  | replaced (op : OpId) (values : List ValueId)
  | erased (op : OpId)
  deriving DecidableEq, Repr, Inhabited

/-- A program under edit. -/
structure Editor where
  graph : Graph
  point : InsertionPoint
  handles : HandleTable
  journal : List Event
  deriving Inhabited

namespace Editor

/-- An editor of nothing, with no insertion point. -/
def empty : Editor := ⟨Graph.empty, ⟨none, none⟩, HandleTable.empty, []⟩

/-- Takes note of a replacement. -/
def noteReplaced (e : Editor) (op : OpId) (values : List ValueId) : Editor :=
  { e with
    handles := e.handles.replaced e.graph op values
    journal := e.journal ++ [.replaced op values] }

/-- Takes note of an erasure. -/
def noteErased (e : Editor) (op : OpId) : Editor :=
  { e with handles := e.handles.erased op, journal := e.journal ++ [.erased op] }

end Editor

/-- A computation that edits a program. -/
abbrev Edit := EStateM Fault Editor

/-- A computation that may fault is an edit that changes nothing. -/
instance {σ : Type} : MonadLift (Except Fault) (EStateM Fault σ) :=
  ⟨fun
    | .ok a => pure a
    | .error e => throw e⟩

/-- The item at a position, stuck outside of the list. -/
def itemAt {α : Type} (xs : List α) (i : Nat) : Except Fault α :=
  match xs[i]? with
  | some x => .ok x
  | none => .error (.stuck .position)

/-- The first `n` items, stuck if there are not as many. -/
def firstItems {α : Type} (xs : List α) (n : Int) : Except Fault (List α) :=
  if 0 ≤ n ∧ n ≤ xs.length then .ok (xs.take n.toNat) else .error (.stuck .position)

/-- The items after the first `n`, stuck if there are not as many. -/
def itemsAfter {α : Type} (xs : List α) (n : Int) : Except Fault (List α) :=
  if 0 ≤ n ∧ n ≤ xs.length then .ok (xs.drop n.toNat) else .error (.stuck .position)

/-- What is there, stuck if it is not. -/
def present {α : Type} : Option α → Except Fault α
  | some x => .ok x
  | none => .error (.stuck .absent)

namespace Edit

/-- The graph. -/
def graph : Edit Graph := return (← get).graph

/-- Changes the graph. -/
def modifyGraph (f : Graph → Graph) : Edit Unit := modify fun e => { e with graph := f e.graph }

/-- The operation of a name. -/
def op (i : OpId) : Edit Op := return (← graph).op i

/-- The type of a value. -/
def tyOf (v : ValueId) : Edit Ty := return (← graph).ty v

/-- Ends the edit with a fault unless something holds. -/
@[macro_inline] def demand (holds : Bool) (fault : Fault) : Edit Unit :=
  if holds then pure () else throw fault

/-- Sets the insertion point. -/
def setPoint (p : InsertionPoint) : Edit Unit := modify fun e => { e with point := p }

/-- Runs an edit at another insertion point and comes back, also after a fault. -/
def atPoint {α : Type} (p : InsertionPoint) (act : Edit α) : Edit α := fun e =>
  match act { e with point := p } with
  | .ok a e' => .ok a { e' with point := e.point }
  | .error f e' => .error f { e' with point := e.point }

/-! ## Creating -/

/-- New values of the given types. -/
def newValues (owner : Owner) (tys : List Ty) : Edit (List ValueId) := do
  let first := (← graph).values.size
  modifyGraph fun g =>
    { g with values := g.values ++ (tys.zipIdx.map fun p => ⟨p.1, owner, p.2, []⟩).toArray }
  return (List.range tys.length).map fun i => ⟨first + i⟩

/-- A block with arguments of the given types, outside of everything. -/
def newBlock (tys : List Ty) : Edit BlockId := do
  let b : BlockId := ⟨(← graph).blocks.size⟩
  modifyGraph fun g => { g with blocks := g.blocks.push ⟨[], [], none, none⟩ }
  let args ← newValues (.argument b) tys
  modifyGraph fun g => g.modifyBlock b fun x => { x with args := args }
  return b

/-- A function with an empty body. -/
def newFunc (name : String) (tys : List Ty) : Edit FuncId := do
  let f : FuncId := ⟨(← graph).funcs.size⟩
  let b ← newBlock tys
  modifyGraph fun g => { g with funcs := g.funcs.push ⟨name, some b⟩ }
  modifyGraph fun g => g.modifyBlock b fun x => { x with func := some f }
  return f

/-- Notes that an operand is a value. -/
def addUse (v : ValueId) (u : Use) : Edit Unit :=
  modifyGraph fun g => g.modifyValue v fun x => { x with uses := x.uses ++ [u] }

/-- Forgets that an operand is a value. -/
def removeUse (v : ValueId) (u : Use) : Edit Unit :=
  modifyGraph fun g => g.modifyValue v fun x => { x with uses := x.uses.erase u }

/-- Reserves the name of an operation that has no operands and results yet. -/
def reserveOp (kind : Kind) (attr : Attr) : Edit OpId := do
  let i : OpId := ⟨(← graph).ops.size⟩
  modifyGraph fun g => { g with ops := g.ops.push ⟨kind, [], [], attr, none, none, false⟩ }
  return i

/-- Makes an operation the owner of a block, which may not have one. -/
def adopt (i : OpId) (b : BlockId) : Edit Unit := do
  let g ← graph
  match (g.block b).parentOp with
  | some owner => throw (.bodyOwned (g.kind i) (g.kind owner))
  | none => modifyGraph fun g => g.modifyBlock b fun x => { x with parentOp := some i }

/-- Gives a reserved operation its operands, results and body. -/
def completeOp (i : OpId) (operands : List ValueId) (tys : List Ty) (body : Option BlockId) :
    Edit Unit := do
  modifyGraph fun g => g.modifyOp i fun x => { x with operands := operands, body := body }
  operands.zipIdx.forM fun p => addUse p.1 ⟨i, p.2⟩
  let results ← newValues (.result i) tys
  modifyGraph fun g => g.modifyOp i fun x => { x with results := results }
  match body with
  | none => pure ()
  | some b => adopt i b

/-- A new operation outside of every block. -/
def newOp (kind : Kind) (operands : List ValueId) (tys : List Ty) (attr : Attr)
    (body : Option BlockId) : Edit OpId := do
  let i ← reserveOp kind attr
  completeOp i operands tys body
  return i

/-- Places an operation at a position of a block. -/
def place (b : BlockId) (pos : Nat) (i : OpId) : Edit Unit := do
  let x ← op i
  demand x.parent.isNone (.alreadyPlaced x.kind)
  modifyGraph fun g => g.modifyBlock b fun y => { y with ops := y.ops.insertIdx pos i }
  modifyGraph fun g => g.modifyOp i fun y => { y with parent := some b }

/-- Places an operation at the end of a block. -/
def append (b : BlockId) (i : OpId) : Edit Unit := do
  place b ((← graph).block b).ops.length i

/-- Places an operation at the insertion point. -/
def insert (i : OpId) : Edit Unit := do
  let p := (← get).point
  let g ← graph
  match p.block with
  | none => throw (.noInsertionPoint (g.kind i))
  | some b =>
    match p.before with
    | none => append b i
    | some o =>
      match (g.block b).ops.findIdx? (· == o) with
      | some pos => place b pos i
      | none => throw (.insertionPointMoved (g.kind o))

/-- A new operation at the insertion point. -/
def create (kind : Kind) (operands : List ValueId) (tys : List Ty) (attr : Attr)
    (body : Option BlockId) : Edit OpId := do
  let i ← newOp kind operands tys attr body
  insert i
  return i

/-- A new operation at the insertion point, of which the first result is asked for. -/
def createValue (kind : Kind) (operands : List ValueId) (ty : Ty) (attr : Attr) : Edit ValueId := do
  let i ← create kind operands [ty] attr none
  itemAt (← op i).results 0

/-! ## Insertion points -/

/-- The insertion point before an operation. -/
def pointBefore (i : OpId) : Edit InsertionPoint := return ⟨(← op i).parent, some i⟩

/-- The insertion point after an operation. -/
def pointAfter (i : OpId) : Edit InsertionPoint := do
  let b ← present (← op i).parent
  let ops := ((← graph).block b).ops
  let next := match ops.findIdx? (· == i) with
    | some pos => pos + 1
    | none => 0
  return ⟨some b, ops[next]?⟩

/-- The insertion point at the end of a block. -/
def pointAtEnd (b : BlockId) : InsertionPoint := ⟨some b, none⟩

/-- The insertion point before the terminator of a block, or at its end if it has none. -/
def pointBeforeTerminator (b : BlockId) : Edit InsertionPoint :=
  return ⟨some b, (← graph).terminator b⟩

/-! ## Rewiring and erasing -/

/-- Makes a value the operand of an operation. -/
def setOperand (i : OpId) (index : Nat) (v : ValueId) : Edit Unit := do
  let old ← itemAt (← op i).operands index
  removeUse old ⟨i, index⟩
  modifyGraph fun g => g.modifyOp i fun x => { x with operands := x.operands.set index v }
  addUse v ⟨i, index⟩

/-- Replaces every use of a value by another value, of the same type or of a compatible tensor
type. -/
def replaceUses (src dst : ValueId) : Edit Unit := do
  if src = dst then pure ()
  else do
    let g ← graph
    demand ((g.ty src).replaceableBy (g.ty dst)) (.replaceType (g.ty src) (g.ty dst))
    (g.value src).uses.forM fun u => setOperand u.op u.index dst

/-- Takes the operands of an operation off the use lists. -/
def dropOperands (i : OpId) : Edit Unit := do
  (← op i).operands.zipIdx.forM fun p => removeUse p.1 ⟨i, p.2⟩

/-- Takes an operation out of its block. -/
def unplace (i : OpId) : Edit Unit := do
  let g ← graph
  match (g.op i).parent with
  | none => pure ()
  | some b => do
    demand ((g.block b).ops.contains i) (.notInBlock (g.kind i))
    modifyGraph fun g => g.modifyBlock b fun y => { y with ops := y.ops.erase i }
    modifyGraph fun g => g.modifyOp i fun y => { y with parent := none }

/-- Checks that a result of an operation is used only inside of the operation. -/
def checkUnused (g : Graph) (i : OpId) (r : ValueId) : Edit Unit :=
  (g.value r).uses.forM fun u =>
    demand (g.isAncestor i u.op) (.stillUsed (g.kind i) (g.value r).index (g.kind u.op))

/-- Moves the insertion point off an operation. -/
def leave (i : OpId) : Edit Unit := do
  if (← get).point.before = some i then setPoint (← pointAfter i) else pure ()

/-- Erases an operation with all those nested in it.  Its results may be used only inside of it. -/
def erase (i : OpId) : Edit Unit := do
  let g ← graph
  demand (!(g.op i).erased) (.erasedTwice (g.kind i))
  (g.op i).results.forM (checkUnused g i)
  leave i
  let nested := g.subtree i
  nested.forM fun j => modify fun e => e.noteErased j
  nested.forM dropOperands
  unplace i
  nested.forM fun j => modifyGraph fun g => g.modifyOp j fun y => { y with erased := true }

/-- Replaces the results of an operation by other values and erases it. -/
def replaceOp (i : OpId) (values : List ValueId) : Edit Unit := do
  let x ← op i
  demand (values.length == x.results.length)
    (.replaceCount x.kind x.results.length values.length)
  modify fun e => e.noteReplaced i values
  (x.results.zip values).forM fun p => replaceUses p.1 p.2
  erase i

end Edit

/-! ## Copies -/

/-- Which value and operation of a copy stands for which one of the source. -/
structure Mapping where
  values : Std.TreeMap Nat ValueId
  ops : Std.TreeMap Nat OpId
  deriving Inhabited

namespace Mapping

/-- Nothing is mapped. -/
def empty : Mapping := ⟨∅, ∅⟩

/-- Maps a value. -/
def insert (m : Mapping) (src dst : ValueId) : Mapping :=
  { m with values := m.values.insert src.idx dst }

/-- Maps values, one by one. -/
def insertAll (m : Mapping) (src dst : List ValueId) : Except Fault Mapping :=
  if src.length ≠ dst.length then .error (.mappingCount src.length dst.length)
  else .ok ((src.zip dst).foldl (fun m p => m.insert p.1 p.2) m)

/-- The copy of a value, or the value itself if it has none. -/
def lookup (m : Mapping) (v : ValueId) : ValueId := m.values.getD v.idx v

/-- Whether a value is mapped. -/
def contains (m : Mapping) (v : ValueId) : Bool := m.values.contains v.idx

/-- The copy of an operation. -/
def lookupOp (m : Mapping) (i : OpId) : Option OpId := m.ops[i.idx]?

end Mapping

namespace Edit

/-- Completes the copy of an operation of the graph, and maps the operation and its results. -/
def completeCopy (g : Graph) (i copy : OpId) (operands : List ValueId) (body : Option BlockId)
    (m : Mapping) : Edit (OpId × Mapping) := do
  completeOp copy operands ((g.op i).results.map g.ty) body
  let m ← m.insertAll (g.op i).results (← op copy).results
  return (copy, { m with ops := m.ops.insert i.idx copy })

/-- Copies an operation with its body, nested at most to the given depth, outside of every block.
Operands are mapped, and the mapping is extended by all results, arguments and operations of the
copy. -/
def copyWithin : Nat → OpId → Mapping → Edit (OpId × Mapping)
  | 0, _, _ => throw (.stuck .endless)
  | depth + 1, i, m => do
    let g ← graph
    let operands := (g.op i).operands.map m.lookup
    let copy ← reserveOp (g.kind i) (g.op i).attr
    match (g.op i).body with
    | none => completeCopy g i copy operands none m
    | some b => do
      let b' ← newBlock ((g.block b).args.map g.ty)
      let m ← m.insertAll (g.block b).args ((← graph).block b').args
      let m ← (g.block b).ops.foldlM (fun m j => do
        let (k, m) ← copyWithin depth j m
        append b' k
        return m) m
      completeCopy g i copy operands (some b') m

/-- Copies an operation with its body, outside of every block. -/
def copy (i : OpId) (m : Mapping) : Edit (OpId × Mapping) := do
  copyWithin ((← graph).ops.size + 1) i m

/-- Copies an operation with its body to the insertion point. -/
def clone (i : OpId) (m : Mapping) : Edit (OpId × Mapping) := do
  let (j, m) ← copy i m
  insert j
  return (j, m)

/-- Copies operations with their bodies to the insertion point, one by one. -/
def cloneAll (ops : List OpId) (m : Mapping) : Edit Mapping :=
  ops.foldlM (fun m i => do return (← clone i m).2) m

/-- The body of a function. -/
def bodyOf (f : FuncId) : Edit BlockId := do present ((← graph).func f).body

/-- Copies a function. -/
def cloneFunc (f : FuncId) : Edit (FuncId × Mapping) := do
  let g ← graph
  let y := g.block (← bodyOf f)
  let f' ← newFunc (g.func f).name (y.args.map g.ty)
  let b' ← bodyOf f'
  let m ← Mapping.empty.insertAll y.args ((← graph).block b').args
  let m ← y.ops.foldlM (fun m i => do
    let (j, m) ← copy i m
    append b' j
    return m) m
  return (f', m)

/-- Moves the body of another function into a function, in place of its own. -/
def restoreFunc (f snapshot : FuncId) : Edit Unit := do
  if snapshot = f then throw .restoreItself
  let old ← bodyOf f
  modifyGraph fun g => g.modifyBlock old fun x => { x with func := none }
  let new := ((← graph).func snapshot).body
  modifyGraph fun g => g.modifyFunc f fun x => { x with body := new }
  let b ← present new
  modifyGraph fun g => g.modifyBlock b fun x => { x with func := some f }
  modifyGraph fun g => g.modifyFunc snapshot fun x => { x with body := none }

/-- The operations of a function, each before those nested in it. -/
def walkFunc (descend : OpId → Bool) (f : FuncId) : Edit (List OpId) := do
  let b ← bodyOf f
  let g ← graph
  return (g.block b).ops.flatMap (g.walk descend)

/-- The operations of a kind in a function, each before those nested in it. -/
def opsOfKind (f : FuncId) (k : Kind) : Edit (List OpId) := do
  let g ← graph
  return (← walkFunc (fun _ => true) f).filter fun i => g.kind i == k

end Edit

end ConvNest.Program
