/-
# The operations of a function

`Graph.Contains` says that an operation is one of a function.  In a valid function such an operation
is a node of the tree (`Valid.node`), and more can be emitted before it (`Valid.start`).
-/
import ConvNest.Proofs.Scenes
import Mathlib.Data.List.Flatten

namespace ConvNest.Program

open List

variable {f : FuncId} {b : BlockId} {V params : List ValueId} {new ns : List Node} {n : Node}
  {e : Editor}

open Node

/-- The operation is one of the function. -/
def Graph.Contains (g : Graph) (f : FuncId) (i : OpId) : Prop :=
  ∃ b, (g.func f).body = some b ∧ i ∈ (g.block b).ops.flatMap g.subtree

/-- An operation of a valid function is a node of its tree. -/
theorem Valid.node {g : Graph} (hv : Valid g f b params ns) {i : OpId} (hi : g.Contains f i) :
    ∃ n ∈ subsAll ns, n.id = i := by
  obtain ⟨b', hb', hi⟩ := hi
  cases hv.body.symm.trans hb'
  obtain ⟨j, hj, hij⟩ := mem_flatMap.1 hi
  rw [hv.holds.ops, mem_map] at hj
  obtain ⟨m, hm, rfl⟩ := hj
  have hlt : m.id.idx < g.ops.size :=
    hv.holds.ids_lt hv.sane _ (mem_map_of_mem (mem_subsAll_of_mem hm))
  have hheld := hv.holds.held.single (mem_subsAll_of_mem hm)
  rw [Held.subtree hv.sane hheld hlt] at hij
  obtain ⟨n, hn, rfl⟩ := mem_map.1 hij
  exact ⟨n, mem_subsAll.2 ⟨m, hm, by simpa using hn⟩, rfl⟩

/-- A node of a tree stands in a block. -/
theorem Node.Holds.stands {g : Graph} {args : List ValueId}
    (h : Holds g b args ns) (hn : n ∈ subsAll ns) : ∃ c, n.id ∈ (g.block c).ops := by
  rcases mem_or_child hn with hn | ⟨k, hk, hchild⟩
  · exact ⟨b, by rw [h.ops]; exact mem_map_of_mem hn⟩
  · obtain ⟨c, -, hc⟩ := (h.held k hk).child_mem hchild
    exact ⟨c, hc⟩

theorem Node.Place.sublist {W : List ValueId} {σ : ValueId → ValueId} (h : Place W ns V n) :
    (subsAll new).Sublist (subsAll (replacedAll n.id new σ ns)) := by
  induction h with
  | here =>
    rw [replacedAll_cons, if_pos rfl, subsAll_append]
    exact sublist_append_left _ _
  | later _ ih =>
    rw [replacedAll_cons, subsAll_append]
    exact ih.trans (sublist_append_right _ _)
  | @inside W V k m ns _ ih =>
    rw [replacedAll_cons, subsAll_append]
    refine List.Sublist.trans ?_ (sublist_append_left _ _)
    split
    · exact .refl _
    · rw [subsAll_cons, subs_eq, replaced_nodes, subsAll_nil, append_nil]
      exact ih.trans (sublist_cons_self _ _)

/-- More can be emitted before every node of a valid function. -/
theorem Valid.start (hv : Valid e.graph f b params ns) (hn : Place params ns V n) :
    ∃ c pre rest, (e.graph.op n.id).parent = some c ∧ (e.graph.block c).ops = pre ++ n.id :: rest ∧
      Start V c pre (n.id :: rest) { e with point := ⟨some c, some n.id⟩ } := by
  obtain ⟨c, hc⟩ := hv.holds.stands hn.mem
  obtain ⟨pre, rest, hops⟩ := append_of_mem hc
  have hnodup := hv.sane.opsNodup c
  have hlt := Graph.lt_of_listed hc
  rw [hops] at hnodup
  refine ⟨c, pre, rest, (hv.sane.parent c n.id hc).2, hops, hv.sane,
    ⟨hlt, rfl, hops, (nomatch ·), ?_⟩, fun v hv' => ?_⟩
  · rintro o ⟨⟩
    exact ⟨fun hmem => (nodup_append.1 hnodup).2.2 _ hmem _ mem_cons_self rfl, rest, rfl⟩
  · exact hv.holds.defs_lt hv.sane v (hn.visible v hv')

end ConvNest.Program
