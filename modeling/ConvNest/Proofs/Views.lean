/-
# Views of nodes

What the views of an operation answer, said of the node of the operation.
-/
import ConvNest.Proofs.Outcome
import ConvNest.Proofs.Sane

namespace ConvNest.Program

open Node

namespace Node

variable {g : Graph} {n : Node}

theorem Here.bodyOps_eq (h : Here g n) : g.bodyOps n.id = n.nodes.map Node.id := by
  rw [Graph.bodyOps, h.body]
  cases hb : n.body with
  | none => simp [(h.noBody hb).2]
  | some b => exact h.bodyOps b hb

/-- The operation around the operations of a body. -/
theorem Here.parentOp_eq (h : Here g n) (hn : g.OwnsBody n.id) {m : Node} (hm : m ∈ n.nodes) :
    g.parentOp m.id = some n.id := by
  obtain ⟨c, hc⟩ := h.body_of_nodes (List.ne_nil_of_mem hm)
  rw [Graph.parentOp, h.placed m hm, hc]
  exact hn c (h.body.trans hc)

theorem isAncestor_of_parentOp {i j : OpId} (hlt : i.idx < g.ops.size) (h : g.parentOp i = some j) :
    g.isAncestor j i = true := by
  obtain ⟨k, hk⟩ : ∃ k, g.ops.size = k + 1 := ⟨g.ops.size - 1, by omega⟩
  rw [Graph.isAncestor, Graph.ancestors, hk, Graph.ancestorsWithin, h]
  simp

section Loops

variable {ns : List Node} {y : Node} {iv : ValueId} {rest : List ValueId}

theorem Here.yielded_eq (h : Here g n) (hy : Here g y) (hnodes : n.nodes = ns ++ [y])
    (hterm : y.head.kind.isTerminator = true) : g.yielded n.id = .ok y.head.operands := by
  obtain ⟨b, hb⟩ := h.body_of_nodes (by simp [hnodes])
  have hlast : g.terminator b = some y.id := by
    have hops : (g.block b).ops.getLast? = some y.id := by
      rw [h.bodyOps b hb, hnodes]
      simp
    simp only [Graph.terminator, hops, hy.kind, hterm, if_true]
  rw [Graph.yielded, Graph.bodyId, h.body, hb]
  refine except_bind_ok b rfl ?_
  rw [hlast]
  exact congrArg _ hy.operands

theorem Here.inductionVar_eq (h : Here g n) (hargs : n.args = iv :: rest) :
    g.inductionVar n.id = .ok iv := by
  obtain ⟨b, hb⟩ := h.body_of_args (by simp [hargs])
  rw [Graph.inductionVar, Graph.bodyOf, h.body, hb]
  refine except_bind_ok (g.block b) rfl ?_
  rw [h.bodyArgs b hb, hargs]
  rfl

theorem Here.carried_eq (h : Here g n) (hargs : n.args = iv :: rest) :
    g.carried n.id = .ok rest := by
  obtain ⟨b, hb⟩ := h.body_of_args (by simp [hargs])
  rw [Graph.carried, Graph.bodyOf, h.body, hb]
  refine except_bind_ok (g.block b) rfl ?_
  rw [h.bodyArgs b hb, hargs]
  exact itemsAfter_ok.2 ⟨by decide, by rw [List.length_cons]; omega, rfl⟩

variable {l u s : ValueId} {inits : List ValueId} (h : Here g n)
  (hops : n.head.operands = l :: u :: s :: inits)

include h hops

theorem Here.bounds_eq : g.bounds n.id = .ok ⟨l, u, s⟩ := by
  rw [Graph.bounds, Graph.operand, Graph.operand, Graph.operand, h.operands, hops]
  rfl

theorem Here.inits_eq : g.inits n.id = .ok inits := by
  rw [Graph.inits, h.operands, hops]
  exact itemsAfter_ok.2 ⟨by decide, by simp; omega, rfl⟩

end Loops

end Node

end ConvNest.Program
