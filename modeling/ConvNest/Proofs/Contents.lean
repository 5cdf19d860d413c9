/-
# What a function contains

The operations of a function are the nodes of its tree, whatever else is true of the graph
(`Holds.contains_iff`): a tree that a graph holds cannot be nested deeper than the graph has
operations, for the operations around a node are all different.
-/
import ConvNest.Proofs.Segment

namespace ConvNest.Program

open List

namespace Node

section Contents

variable {g : Graph} {b : BlockId} {params : List ValueId} {ns : List Node}

/-- The operations of a block are in the graph. -/
theorem Holds.id_lt (h : Holds g b params ns) {m : Node} (hm : m ∈ subsAll ns) :
    m.id.idx < g.ops.size := by
  rcases mem_or_child hm with hm | ⟨k, hk, hmem⟩
  · exact Graph.lt_of_parent (h.placed _ hm)
  · obtain ⟨c, hc, -⟩ := (h.held k hk).child_mem hmem
    exact Graph.lt_of_parent (((h.held k hk).placed m hmem).trans hc)

theorem depthAll_le_of_forall {k : Nat} (h : ∀ n ∈ ns, n.depth ≤ k) : depthAll ns ≤ k := by
  induction ns with
  | nil => exact Nat.zero_le k
  | cons n ns ih =>
    exact Nat.max_le.2 ⟨h n mem_cons_self, ih fun m hm => h m (mem_cons_of_mem _ hm)⟩

/-- Under `around`, the different operations around a node, there is room for what is nested in
it. -/
theorem Held.depth_le_of_around {n : Node} (h : Held g [n])
    (hlt : ∀ i ∈ ids [n], i.idx < g.ops.size) {around : List OpId} (hnodup : around.Nodup)
    (hin : ∀ i ∈ around, i.idx < g.ops.size) (hapart : ∀ i ∈ around, i ∉ ids [n]) :
    around.length + n.depth ≤ g.ops.size := by
  induction n using Node.induct generalizing around with
  | mk i hd b as ks ih =>
    have hids : ids [mk i hd b as ks] = i :: ids ks := by simp [ids, subs_eq]
    rw [hids] at hlt hapart
    have hnodup' : (i :: around).Nodup :=
      nodup_cons.2 ⟨fun hi => hapart i hi mem_cons_self, hnodup⟩
    have hin' : ∀ j ∈ i :: around, j.idx < g.ops.size := by
      intro j hj
      rcases mem_cons.1 hj with rfl | hj
      · exact hlt j mem_cons_self
      · exact hin j hj
    have hroom : around.length + 1 ≤ g.ops.size := length_le_size hnodup' hin'
    have hinner : depthAll ks ≤ g.ops.size - (around.length + 1) := by
      refine depthAll_le_of_forall fun k hk => ?_
      have hsub : ids [k] ⊆ ids ks := by
        intro j hj
        obtain ⟨m, hm, rfl⟩ := mem_map.1 hj
        exact mem_map_of_mem (subsAll_trans (mem_subsAll_of_mem hk) (by simpa using hm))
      have hheld := h.child hk
      have hle := ih k hk hheld (fun j hj => hlt j (mem_cons_of_mem _ (hsub hj))) hnodup' hin' ?_
      · rw [length_cons] at hle
        omega
      · intro j hj hjk
        rcases mem_cons.1 hj with rfl | hj
        · exact h.notMem_nodes (hsub hjk)
        · exact hapart j hj (mem_cons_of_mem _ (hsub hjk))
    rw [depth_eq, nodes_mk]
    omega

variable (h : Holds g b params ns)

include h

/-- The operations that are nested in one of a block are those of its tree. -/
theorem Holds.subtree {m : Node} (hm : m ∈ subsAll ns) : g.subtree m.id = ids [m] := by
  have hheld := h.held.single hm
  refine hheld.walkWithin (Nat.le_succ_of_le ?_)
  have hlt : ∀ i ∈ ids [m], i.idx < g.ops.size := by
    intro i hi
    obtain ⟨k, hk, rfl⟩ := mem_map.1 hi
    exact h.id_lt (subsAll_trans hm (by simpa using hk))
  simpa using hheld.depth_le_of_around hlt nodup_nil (by simp) (by simp)

/-- A tree is not nested deeper than its graph has operations. -/
theorem Holds.depthAll_le : depthAll ns ≤ g.ops.size := by
  refine depthAll_le_of_forall fun n hn => ?_
  have hmem := mem_subsAll_of_mem hn
  have hheld := h.held.single hmem
  have hlt : ∀ i ∈ ids [n], i.idx < g.ops.size := by
    intro i hi
    obtain ⟨k, hk, rfl⟩ := mem_map.1 hi
    exact h.id_lt (subsAll_trans hmem (by simpa using hk))
  simpa using hheld.depth_le_of_around hlt nodup_nil (by simp) (by simp)

/-- **The operations of a function are the nodes of its tree.** -/
theorem Holds.contains_iff {f : FuncId} (hb : (g.func f).body = some b) {i : OpId} :
    g.Contains f i ↔ ∃ m ∈ subsAll ns, m.id = i := by
  constructor
  · rintro ⟨b', hb', hi⟩
    cases hb.symm.trans hb'
    obtain ⟨j, hj, hij⟩ := mem_flatMap.1 hi
    rw [h.ops] at hj
    obtain ⟨n, hn, rfl⟩ := mem_map.1 hj
    rw [h.subtree (mem_subsAll_of_mem hn)] at hij
    obtain ⟨m, hm, rfl⟩ := mem_map.1 hij
    exact ⟨m, subsAll_trans (mem_subsAll_of_mem hn) (by simpa using hm), rfl⟩
  · rintro ⟨m, hm, rfl⟩
    obtain ⟨n, hn, hmn⟩ := mem_subsAll.1 hm
    refine ⟨b, hb, mem_flatMap.2 ⟨n.id, ?_, ?_⟩⟩
    · rw [h.ops]
      exact mem_map_of_mem hn
    · rw [h.subtree (mem_subsAll_of_mem hn)]
      exact mem_map_of_mem (by simpa using hmn)

end Contents

end Node

end ConvNest.Program
