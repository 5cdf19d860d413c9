/-
# Graphs that keep their books

In a graph that is built by the editing operations every entry knows where it belongs: a value knows
its owner and its position, an operation its block, a body its owner, and a use list names operands
that are the value.  `Sane` collects this.

The consequence used everywhere is that a tree of a sane graph names nothing twice: no operation
(`Holds.ids_nodup`) and no value (`Holds.defs_nodup`).
-/
import ConvNest.Proofs.Tree
import Mathlib.Data.List.Nodup
import Mathlib.Data.List.Perm.Subperm

namespace ConvNest.Program

open List

/-- The body of an operation, if it has one, belongs to it. -/
def Graph.OwnsBody (g : Graph) (i : OpId) : Prop :=
  ∀ b, (g.op i).body = some b → (g.block b).parentOp = some i

/-- Every entry of the graph knows where it belongs.  An operation outside of every block may have
the body of another one: a request that asks for a body that has an owner ends by a fault, and
leaves it so. -/
structure Sane (g : Graph) : Prop where
  results : ∀ i k r, (g.op i).results[k]? = some r →
    r.idx < g.values.size ∧ (g.value r).owner = .result i ∧ (g.value r).index = k
  args : ∀ b k a, (g.block b).args[k]? = some a →
    a.idx < g.values.size ∧ (g.value a).owner = .argument b ∧ (g.value a).index = k
  parent : ∀ b i, i ∈ (g.block b).ops → i.idx < g.ops.size ∧ (g.op i).parent = some b
  opsNodup : ∀ b, (g.block b).ops.Nodup
  body : ∀ i b, (g.op i).body = some b → b.idx < g.blocks.size
  owns : ∀ i b, (g.op i).parent = some b → g.OwnsBody i
  owner : ∀ b i, (g.block b).parentOp = some i → i.idx < g.ops.size
  used : ∀ v u, u ∈ (g.value v).uses → (g.op u.op).operands[u.index]? = some v
  usesNodup : ∀ v, (g.value v).uses.Nodup

namespace Node

/-! ## 1. Paths -/

/-- A node is reached from another one by steps into bodies. -/
inductive Below (n : Node) : Node → Prop
  | self : Below n n
  | child {k m : Node} (hk : Below n k) (hm : m ∈ k.nodes) : Below n m

theorem Below.trans {k m n : Node} (h : Below n k) (h' : Below k m) : Below n m := by
  induction h' with
  | self => exact h
  | child _ hm ih => exact .child ih hm

theorem below_of_mem {m n : Node} (h : m ∈ n.subs) : Below n m := by
  induction n using Node.induct with
  | mk i hd b as ns ih =>
    rw [subs_eq, mem_cons] at h
    rcases h with rfl | h
    · exact .self
    · obtain ⟨c, hc, hmc⟩ := mem_subsAll.1 h
      exact (Below.child .self hc).trans (ih c hc hmc)

theorem Below.mem {m n : Node} (h : Below n m) : m ∈ n.subs := by
  induction h with
  | self => exact self_mem_subs n
  | child _ hm ih => exact subs_trans ih (mem_subs_of_mem_nodes hm)

/-- A node of trees is the root of one, or in a body. -/
theorem mem_or_child {m : Node} {ns : List Node} (h : m ∈ subsAll ns) :
    m ∈ ns ∨ ∃ k ∈ subsAll ns, m ∈ k.nodes := by
  obtain ⟨n, hn, hmn⟩ := mem_subsAll.1 h
  cases below_of_mem hmn with
  | self => exact .inl hn
  | @child k _ hk hmem => exact .inr ⟨k, mem_subsAll.2 ⟨n, hn, hk.mem⟩, hmem⟩

/-! ## 2. No operation twice -/

section Names

variable {g : Graph} {b : BlockId} {args : List ValueId} {ns : List Node}

variable {m n : Node} {fuel : Nat}

/-- A body that is made of some trees is not the body of a node of them. -/
theorem Holds.body_ne (h : Holds g b args ns) (hm : m ∈ subsAll ns) : m.body ≠ some b := by
  intro hb
  have inner := h.held.body hm hb
  exact nodes_ne_of_mem hm (inner.held.unique_all h.held (inner.ops.symm.trans h.ops))

/-- What is in a body has a place, so that it owns its own one. -/
theorem Here.owns (hg : Sane g) (h : Here g n) (hm : m ∈ n.nodes) : g.OwnsBody m.id := by
  obtain ⟨c, hc⟩ := h.body_of_nodes (ne_nil_of_mem hm)
  exact hg.owns m.id c ((h.placed m hm).trans hc)

theorem Held.owns (hg : Sane g) (h : Held g ns) (hroots : ∀ n ∈ ns, g.OwnsBody n.id)
    (hm : m ∈ subsAll ns) :
    g.OwnsBody m.id := by
  rcases mem_or_child hm with hm | ⟨k, hk, hmem⟩
  · exact hroots m hm
  · exact (h k hk).owns hg hmem

theorem Holds.owns (hg : Sane g) (h : Holds g b args ns) (hm : m ∈ subsAll ns) : g.OwnsBody m.id :=
  h.held.owns hg (fun n hn => hg.owns n.id b (h.placed n hn)) hm

/-- Different trees of a block have no operation in common. -/
theorem Holds.apart (hg : Sane g) (h : Holds g b args ns) {k l : Node} (hm : m ∈ ns) (hn : n ∈ ns)
    (hne : m.id ≠ n.id) (hk : Below m k) (hl : Below n l) : k.id ≠ l.id := by
  have inside {m k : Node} (hm : m ∈ ns) (hk : Below m k) : k ∈ subsAll ns :=
    mem_subsAll.2 ⟨m, hm, hk.mem⟩
  induction hk generalizing l with
  | self =>
    cases hl with
    | self => exact hne
    | child hl' hmem =>
      intro heq
      refine h.body_ne (inside hn hl') ?_
      rw [← (h.held _ (inside hn hl')).placed _ hmem, ← heq, h.placed m hm]
  | child hk' hmem ih =>
    cases hl with
    | self =>
      intro heq
      refine h.body_ne (inside hm hk') ?_
      rw [← (h.held _ (inside hm hk')).placed _ hmem, heq, h.placed n hn]
    | @child k' _ hl' hmem' =>
      intro heq
      have hx := h.held _ (inside hm hk')
      have hy := h.held _ (inside hn hl')
      have same : _ = k'.body := (hx.placed _ hmem).symm.trans (heq ▸ hy.placed _ hmem')
      obtain ⟨c, hb, -⟩ := hy.child_mem hmem'
      have ho := h.owns hg (inside hn hl') c (hy.body.trans hb)
      have ho' := h.owns hg (inside hm hk') c (hx.body.trans (same.trans hb))
      exact ih hl' (Option.some.inj (ho'.symm.trans ho))

theorem Held.notMem_nodes (h : Held g [n]) : n.id ∉ ids n.nodes := by
  intro hmem
  obtain ⟨m, hm, heq⟩ := mem_map.1 hmem
  have hm' : m ∈ subsAll [n] := by
    rw [subsAll_cons, subs_eq]
    simp [hm]
  have := h.single hm'
  have hmn := this.unique h heq
  subst hmn
  exact nodes_ne_of_mem hm rfl

theorem Holds.ids_nodup_of (hg : Sane g) (ih : ∀ n ∈ ns, (ids [n]).Nodup) (h : Holds g b args ns) :
    (ids ns).Nodup := by
  have hdisj : ∀ m ∈ ns, ∀ n ∈ ns, m.id ≠ n.id → ∀ x ∈ ids [m], x ∉ ids [n] := by
    intro m hm n hn hne x hx hx'
    obtain ⟨k, hk, rfl⟩ := mem_map.1 hx
    obtain ⟨l, hl, heq⟩ := mem_map.1 hx'
    simp only [subsAll_cons, subsAll_nil, append_nil] at hk hl
    exact h.apart hg hm hn hne (below_of_mem hk) (below_of_mem hl) heq.symm
  have hnodup : (ns.map Node.id).Nodup := h.ops ▸ hg.opsNodup b
  clear h
  induction ns with
  | nil => exact nodup_nil
  | cons n ns tail =>
    rw [map_cons, nodup_cons] at hnodup
    rw [← singleton_append, ids_append, nodup_append]
    refine ⟨ih n mem_cons_self, tail (fun m hm => ih m (mem_cons_of_mem _ hm))
      (fun m hm k hk => hdisj m (mem_cons_of_mem _ hm) k (mem_cons_of_mem _ hk)) hnodup.2, ?_⟩
    intro x hx y hy hxy
    subst hxy
    obtain ⟨k, hk, rfl⟩ := mem_map.1 hy
    obtain ⟨m, hm, hkm⟩ := mem_subsAll.1 hk
    refine hdisj n mem_cons_self m (mem_cons_of_mem _ hm) (fun heq => ?_) _ hx ?_
    · exact hnodup.1 (heq ▸ mem_map_of_mem hm)
    · exact mem_map_of_mem (by simpa using hkm)

theorem Held.ids_nodup (hg : Sane g) (h : Held g [n]) : (ids [n]).Nodup := by
  induction n using Node.induct with
  | mk i hd b as ns ih =>
    have inner := (held_single.1 h).2
    have rest : (ids ns).Nodup := by
      cases hb : b with
      | none =>
        rw [show ns = [] from ((held_single.1 h).1.noBody hb).2]
        exact nodup_nil
      | some c =>
        have hold : Holds g c as ns :=
          h.body (mem_subsAll_of_mem mem_cons_self) hb
        exact hold.ids_nodup_of hg fun n hn => ih n hn fun m hm =>
          inner m (subsAll_trans (mem_subsAll_of_mem hn) (by simpa using hm))
    have first := h.notMem_nodes
    simp only [ids, subsAll_cons, subs_eq, subsAll_nil, append_nil,
      map_cons, nodup_cons] at first ⊢
    exact ⟨first, rest⟩

/-- A tree of a sane graph names no operation twice. -/
theorem Holds.ids_nodup (hg : Sane g) (h : Holds g b args ns) : (ids ns).Nodup :=
  h.ids_nodup_of hg fun _ hn => (h.held.single (mem_subsAll_of_mem hn)).ids_nodup hg

theorem Held.ids_lt (hg : Sane g) (h : Held g ns) (hlt : ∀ n ∈ ns, n.id.idx < g.ops.size) :
    ∀ i ∈ ids ns, i.idx < g.ops.size := by
  intro i hi
  obtain ⟨m, hm, rfl⟩ := mem_map.1 hi
  rcases mem_or_child hm with hm | ⟨k, hk, hmem⟩
  · exact hlt _ hm
  · obtain ⟨c, -, hc⟩ := (h k hk).child_mem hmem
    exact (hg.parent c _ hc).1

theorem Holds.ids_lt (hg : Sane g) (h : Holds g b args ns) : ∀ i ∈ ids ns, i.idx < g.ops.size :=
  h.held.ids_lt hg fun _ hn => (hg.parent b _ (h.ops ▸ mem_map_of_mem hn)).1

/-- A graph has at least as many operations as there are names of them. -/
theorem length_le_size {is : List OpId} (hnodup : is.Nodup) (hlt : ∀ i ∈ is, i.idx < g.ops.size) :
    is.length ≤ g.ops.size := by
  have hnodup : (is.map OpId.idx).Nodup :=
    hnodup.map_on fun i _ j _ hij => by cases i; cases j; simpa using hij
  have hsub : is.map OpId.idx ⊆ List.range g.ops.size := by
    intro k hk
    obtain ⟨i, hi, rfl⟩ := mem_map.1 hk
    exact mem_range.2 (hlt i hi)
  simpa using (subperm_of_subset hnodup hsub).length_le

theorem depthAll_le_size (hnodup : (ids ns).Nodup) (hlt : ∀ i ∈ ids ns, i.idx < g.ops.size) :
    depthAll ns ≤ g.ops.size :=
  Nat.le_trans (depthAll_le ns) (length_le_size hnodup hlt)

/-- A tree of a sane graph is not nested deeper than the graph has operations. -/
theorem Holds.depth_le (hg : Sane g) (h : Holds g b args ns) : depthAll ns ≤ g.ops.size :=
  depthAll_le_size (h.ids_nodup hg) (h.ids_lt hg)

theorem walkWithin_of
    (ih : ∀ n ∈ ns, n.depth ≤ fuel + 1 → g.walkWithin (fun _ => true) fuel n.id = ids [n])
    (hd : depthAll ns ≤ fuel + 1) :
    (ns.map id).flatMap (g.walkWithin (fun _ => true) fuel) = ids ns := by
  induction ns with
  | nil => rfl
  | cons n ns tail =>
    simp only [depthAll] at hd
    rw [map_cons, flatMap_cons, ih n mem_cons_self (by omega),
      tail (fun k hk => ih k (mem_cons_of_mem _ hk)) (by omega)]
    simp [ids]

theorem Held.walkWithin (h : Held g [n]) (hdepth : n.depth ≤ fuel + 1) :
    g.walkWithin (fun _ => true) fuel n.id = ids [n] := by
  induction n using Node.induct generalizing fuel with
  | mk i hd b as ks ih =>
    obtain ⟨hhere, hks⟩ := held_single.1 h
    have hids : ids [mk i hd b as ks] = i :: ids ks := by simp [ids, subs_eq]
    have hbody : g.bodyOps i = ks.map id := by
      have hb : (g.op i).body = b := hhere.body
      unfold Graph.bodyOps
      rw [hb]
      cases b with
      | none => rw [show ks = [] from (hhere.noBody rfl).2]; rfl
      | some c => exact hhere.bodyOps c rfl
    rw [hids]
    rw [depth_eq, nodes_mk] at hdepth
    cases fuel with
    | zero =>
      cases ks with
      | nil => rfl
      | cons k ks =>
        simp only [depthAll, depth_eq k] at hdepth
        omega
    | succ fuel =>
      simp only [Graph.walkWithin, id_mk, hbody]
      congr 1
      refine walkWithin_of (fun k hk hdk => ?_) (by omega)
      exact ih k hk (fun m hm => hks m (subsAll_trans (mem_subsAll_of_mem hk) (by simpa using hm)))
        hdk

/-- The operations that are erased with an operation are those of its tree. -/
theorem Held.subtree (hg : Sane g) (h : Held g [n]) (hlt : n.id.idx < g.ops.size) :
    g.subtree n.id = ids [n] := by
  refine h.walkWithin (Nat.le_succ_of_le ?_)
  have := depthAll_le_size (h.ids_nodup hg) (h.ids_lt hg (by simpa using hlt))
  simpa [depthAll] using this

end Names

/-! ## 3. No value twice -/

section Values

variable {g : Graph} {b : BlockId} {args : List ValueId} {ns : List Node}

variable {n : Node} {v : ValueId} (hg : Sane g)

include hg

theorem results_nodup (i : OpId) : (g.op i).results.Nodup := by
  rw [nodup_iff_injective_get]
  intro j k hjk
  have hj := hg.results i j _ (getElem?_eq_getElem j.2)
  have hk := hg.results i k _ (getElem?_eq_getElem k.2)
  simp only [get_eq_getElem] at hjk
  rw [hjk] at hj
  exact Fin.ext (hj.2.2.symm.trans hk.2.2)

theorem args_nodup (b : BlockId) : (g.block b).args.Nodup := by
  rw [nodup_iff_injective_get]
  intro j k hjk
  have hj := hg.args b j _ (getElem?_eq_getElem j.2)
  have hk := hg.args b k _ (getElem?_eq_getElem k.2)
  simp only [get_eq_getElem] at hjk
  rw [hjk] at hj
  exact Fin.ext (hj.2.2.symm.trans hk.2.2)

theorem owner_of_mem_results {i : OpId} {r : ValueId} (h : r ∈ (g.op i).results) :
    r.idx < g.values.size ∧ (g.value r).owner = .result i := by
  obtain ⟨k, hk⟩ := getElem?_of_mem h
  exact ⟨(hg.results i k r hk).1, (hg.results i k r hk).2.1⟩

theorem owner_of_mem_args {b : BlockId} {a : ValueId} (h : a ∈ (g.block b).args) :
    a.idx < g.values.size ∧ (g.value a).owner = .argument b := by
  obtain ⟨k, hk⟩ := getElem?_of_mem h
  exact ⟨(hg.args b k a hk).1, (hg.args b k a hk).2.1⟩

/-- A value that a node defines is owned by the node or by its body. -/
theorem Here.own_owner (h : Here g n) (hv : v ∈ n.own) :
    v.idx < g.values.size ∧ ((g.value v).owner = .result n.id ∨
      ∃ c, n.body = some c ∧ (g.value v).owner = .argument c) := by
  rcases mem_append.1 hv with hv | hv
  · have := owner_of_mem_results hg (h.results ▸ hv)
    exact ⟨this.1, .inl this.2⟩
  · obtain ⟨c, hb⟩ := h.body_of_args (ne_nil_of_mem hv)
    have := owner_of_mem_args hg (h.bodyArgs c hb ▸ hv)
    exact ⟨this.1, .inr ⟨c, hb, this.2⟩⟩

theorem Here.own_nodup (h : Here g n) : n.own.Nodup := by
  rw [own, nodup_append]
  refine ⟨h.results ▸ results_nodup hg n.id, ?_, ?_⟩
  · cases hb : n.body with
    | none => rw [(h.noBody hb).1]; exact nodup_nil
    | some c => exact h.bodyArgs c hb ▸ args_nodup hg c
  · rintro v hv u hu rfl
    have hr := (owner_of_mem_results hg (h.results ▸ hv)).2
    obtain ⟨c, hb⟩ := h.body_of_args (ne_nil_of_mem hu)
    have ha := (owner_of_mem_args hg (h.bodyArgs c hb ▸ hu)).2
    exact Owner.noConfusion (hr.symm.trans ha)

/-- Nodes that define the same value are the same operation. -/
theorem Here.id_of_own {m : Node} (hm : Here g m) (hn : Here g n) (hom : g.OwnsBody m.id)
    (hon : g.OwnsBody n.id) (hv : v ∈ m.own) (hv' : v ∈ n.own) : m.id = n.id := by
  rcases (hm.own_owner hg hv).2 with ho | ⟨c, hc, ho⟩ <;>
    rcases (hn.own_owner hg hv').2 with ho' | ⟨c', hc', ho'⟩ <;> rw [ho] at ho'
  · exact Owner.result.inj ho'
  · cases ho'
  · cases ho'
  · obtain rfl := Owner.argument.inj ho'
    have h := hom c (hm.body.trans hc)
    have h' := hon c (hn.body.trans hc')
    exact Option.some.inj (h.symm.trans h')

theorem Holds.defs_nodup (h : Holds g b args ns) : (defs ns).Nodup := by
  rw [defs, nodup_flatMap]
  refine ⟨fun m hm => (h.held m hm).own_nodup hg, ?_⟩
  have hids : ((subsAll ns).map Node.id).Pairwise (· ≠ ·) := h.ids_nodup hg
  rw [pairwise_map] at hids
  refine hids.imp_of_mem fun hm hn hne v hv hv' => ?_
  exact hne ((h.held _ hm).id_of_own hg (h.held _ hn) (h.owns hg hm) (h.owns hg hn) hv hv')

/-- A tree of a sane graph defines no value twice, and no argument of the block. -/
theorem Holds.nodup (h : Holds g b args ns) : (args ++ defs ns).Nodup := by
  rw [nodup_append]
  refine ⟨h.args ▸ args_nodup hg b, h.defs_nodup hg, ?_⟩
  rintro v hv u hu rfl
  obtain ⟨m, hm, hvm⟩ := mem_defs.1 hu
  have ha := (owner_of_mem_args hg (h.args ▸ hv)).2
  rcases ((h.held m hm).own_owner hg hvm).2 with ho | ⟨c, hc, ho⟩ <;> rw [ha] at ho
  · cases ho
  · obtain rfl := Owner.argument.inj ho
    exact h.body_ne hm hc

theorem Holds.defs_lt (h : Holds g b args ns) : ∀ v ∈ args ++ defs ns, v.idx < g.values.size := by
  intro v hv
  rcases mem_append.1 hv with hv | hv
  · exact (owner_of_mem_args hg (h.args ▸ hv)).1
  · obtain ⟨m, hm, hvm⟩ := mem_defs.1 hv
    exact ((h.held m hm).own_owner hg hvm).1

end Values

end Node

end ConvNest.Program
