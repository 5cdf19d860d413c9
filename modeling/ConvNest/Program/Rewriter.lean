/-
# Requests to a rewriter

A pass changes a program by requests to a rewriter.  `Rewrite` lists them, so that one can speak of
all sequences of requests; blocks for bodies and insertion points come with them.

A request that ends by a fault leaves what it did up to there, and more requests may follow.
-/
import ConvNest.Program.Edit

namespace ConvNest.Program

/-- The editor that an edit leaves, also when it ends by a fault. -/
def Edit.after {α : Type} (x : Edit α) (e : Editor) : Editor :=
  match x e with
  | .ok _ e' => e'
  | .error _ e' => e'

/-- Everything that a mapping maps to is in the graph. -/
def Mapping.Into (m : Mapping) (g : Graph) : Prop :=
  ∀ v, m.lookup v = v ∨ (m.lookup v).idx < g.values.size

/-- A request to a rewriter. -/
inductive Rewrite where
  | setPoint (p : InsertionPoint)
  | newBlock (tys : List Ty)
  | create (kind : Kind) (operands : List ValueId) (tys : List Ty) (attr : Attr)
      (body : Option BlockId)
  | clone (op : OpId) (m : Mapping)
  | replaceUses (src dst : ValueId)
  | replaceOp (op : OpId) (values : List ValueId)
  | erase (op : OpId)

namespace Rewrite

/-- What a request asks for. -/
def run : Rewrite → Edit Unit
  | setPoint p => Edit.setPoint p
  | newBlock tys => do let _ ← Edit.newBlock tys
  | create kind operands tys attr body => do let _ ← Edit.create kind operands tys attr body
  | clone i m => do let _ ← Edit.clone i m
  | replaceUses src dst => Edit.replaceUses src dst
  | replaceOp i values => Edit.replaceOp i values
  | erase i => Edit.erase i

/-- The editor after requests, one after the other. -/
def runAll (rs : List Rewrite) (e : Editor) : Editor := rs.foldl (fun e r => r.run.after e) e

/-- Everything that a request speaks of is in the graph. -/
def Known (g : Graph) : Rewrite → Prop
  | setPoint p => ∀ b, p.block = some b → b.idx < g.blocks.size
  | newBlock _ => True
  | create _ operands _ _ body =>
    (∀ v ∈ operands, v.idx < g.values.size) ∧ ∀ b, body = some b → b.idx < g.blocks.size
  | clone i m => i.idx < g.ops.size ∧ m.Into g
  | replaceUses src dst => src.idx < g.values.size ∧ dst.idx < g.values.size
  | replaceOp i values => i.idx < g.ops.size ∧ ∀ v ∈ values, v.idx < g.values.size
  | erase i => i.idx < g.ops.size

/-- Every request speaks only of what is in the graph when its turn comes. -/
def KnownAll : List Rewrite → Editor → Prop
  | [], _ => True
  | r :: rs, e => r.Known e.graph ∧ KnownAll rs (r.run.after e)

end Rewrite

/-- An editor of one function, which is empty. -/
def Editor.ofFunc (name : String) (tys : List Ty) : Editor :=
  (Edit.newFunc name tys).after Editor.empty

end ConvNest.Program
