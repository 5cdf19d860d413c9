/-
# Programs as trees

The part of a graph that a block reaches is a tree: operations in order, each with the operations of
its body.  A `Node` is such an operation with everything under it, cut loose from the graph, so that
properties of a program can be stated and proved by recursion on its nesting.

`Held g ns` says that the graph holds the trees `ns`.  It asks for one thing at every node, `Here`,
and `Here` looks only at the entries of the graph that the node names: a graph that changes
elsewhere goes on holding the tree.

`Scoped V ns` says that every operand is visible: it is one of `V`, an argument of a body around it,
or a result of an earlier operation of a block around it.
-/
import ConvNest.Program.View

namespace ConvNest.Program

open List

/-- What an operation is, apart from its name and its body; `tys` are the types of the results. -/
structure Head where
  kind : Kind
  operands : List ValueId
  results : List ValueId
  tys : List Ty
  attr : Attr

/-- An operation with everything nested in it.  One without a body has no arguments and no nodes. -/
inductive Node where
  | mk (id : OpId) (head : Head) (body : Option BlockId) (args : List ValueId) (nodes : List Node)

namespace Node

variable {k m n : Node} {ns ms : List Node} {g : Graph} {V W : List ValueId}

/-- The name of the operation. -/
def id : Node → OpId
  | mk i _ _ _ _ => i

/-- What the operation is. -/
def head : Node → Head
  | mk _ h _ _ _ => h

/-- The block of the body. -/
def body : Node → Option BlockId
  | mk _ _ b _ _ => b

/-- The arguments of the body. -/
def args : Node → List ValueId
  | mk _ _ _ as _ => as

/-- The operations of the body. -/
def nodes : Node → List Node
  | mk _ _ _ _ ns => ns

section Projections

variable (i : OpId) (h : Head) (b : Option BlockId) (as : List ValueId) (ns : List Node)

@[simp] theorem id_mk : (mk i h b as ns).id = i := rfl

@[simp] theorem head_mk : (mk i h b as ns).head = h := rfl

@[simp] theorem body_mk : (mk i h b as ns).body = b := rfl

@[simp] theorem args_mk : (mk i h b as ns).args = as := rfl

@[simp] theorem nodes_mk : (mk i h b as ns).nodes = ns := rfl

end Projections

/-- What holds of a node as soon as it holds of the nodes of its body holds of every node. -/
@[elab_as_elim] theorem induct {motive : Node → Prop}
    (mk : ∀ i h b as ns, (∀ n ∈ ns, motive n) → motive (.mk i h b as ns)) (n : Node) : motive n :=
  @Node.rec motive (fun ns => ∀ n ∈ ns, motive n) mk
    (by simp) (fun _ _ hn hns => by simpa using ⟨hn, hns⟩) n

/-- What holds of no trees, and of trees as soon as it holds of the body of the first one and of the
others, holds of all trees. -/
@[elab_as_elim] theorem forest {motive : List Node → Prop} (nil : motive [])
    (cons : ∀ n ns, motive n.nodes → motive ns → motive (n :: ns)) (ns : List Node) : motive ns :=
  @Node.rec_1 (fun n => motive n.nodes) motive (fun _ _ _ _ _ h => h) nil cons ns

/-! ## 1. The nodes of a tree -/

mutual

/-- A node and all those nested in it. -/
def subs : Node → List Node
  | mk i h b as ns => mk i h b as ns :: subsAll ns

/-- The nodes of trees. -/
def subsAll : List Node → List Node
  | [] => []
  | n :: ns => n.subs ++ subsAll ns

end

@[simp] theorem subsAll_nil : subsAll [] = [] := by simp [subsAll]

@[simp] theorem subsAll_cons (n : Node) (ns : List Node) :
    subsAll (n :: ns) = n.subs ++ subsAll ns := by simp [subsAll]

@[simp] theorem subsAll_append (ms ns : List Node) :
    subsAll (ms ++ ns) = subsAll ms ++ subsAll ns := by
  induction ms with
  | nil => simp
  | cons m ms ih => simp [ih]

theorem subs_eq (n : Node) : n.subs = n :: subsAll n.nodes := by
  cases n with
  | mk i h b as ns => simp [subs]

theorem mem_subsAll : m ∈ subsAll ns ↔ ∃ n ∈ ns, m ∈ n.subs := by
  induction ns with
  | nil => simp
  | cons n ns ih => simp [ih]

theorem mem_subsAll_cons : m ∈ subsAll (n :: ns) ↔ m = n ∨ m ∈ subsAll n.nodes ∨
    m ∈ subsAll ns := by
  rw [subsAll_cons, mem_append, subs_eq, mem_cons, or_assoc]

@[simp] theorem self_mem_subs (n : Node) : n ∈ n.subs := by simp [subs_eq]

theorem mem_subsAll_of_mem (h : n ∈ ns) : n ∈ subsAll ns :=
  mem_subsAll.2 ⟨n, h, n.self_mem_subs⟩

theorem subsAll_trans {k m : Node} {ns : List Node} (hm : m ∈ subsAll ns) (hk : k ∈ m.subs) :
    k ∈ subsAll ns := by
  induction ns using forest with
  | nil => simp at hm
  | cons n ns body rest =>
    rcases mem_subsAll_cons.1 hm with rfl | hm | hm
    · rw [subsAll_cons]
      exact mem_append_left _ hk
    · exact mem_subsAll_cons.2 (.inr (.inl (body hm)))
    · exact mem_subsAll_cons.2 (.inr (.inr (rest hm)))

theorem subs_trans (hm : m ∈ n.subs) (hk : k ∈ m.subs) : k ∈ n.subs := by
  simpa using @subsAll_trans k m [n] (by simpa using hm) hk

theorem mem_subs_of_mem_nodes (hk : k ∈ m.nodes) : k ∈ m.subs := by
  rw [subs_eq]
  exact mem_cons_of_mem _ (mem_subsAll_of_mem hk)

theorem nodes_mem_subsAll (hm : m ∈ subsAll ns) (hk : k ∈ m.nodes) : k ∈ subsAll ns :=
  subsAll_trans hm (mem_subs_of_mem_nodes hk)

theorem sizeOf_le_of_mem_subs (h : m ∈ n.subs) : sizeOf m ≤ sizeOf n := by
  induction n using Node.induct with
  | mk i hd b as ns ih =>
    rw [subs_eq, mem_cons] at h
    rcases h with rfl | h
    · exact Nat.le_refl _
    · obtain ⟨n, hn, hmn⟩ := mem_subsAll.1 h
      have inner := ih n hn hmn
      have outer := sizeOf_lt_of_mem hn
      rw [nodes_mk] at outer
      simp only [mk.sizeOf_spec]
      omega

/-- A tree is not nested in one of its own nodes. -/
theorem nodes_ne_of_mem (h : m ∈ subsAll ns) : m.nodes ≠ ns := by
  rintro rfl
  obtain ⟨n, hn, hmn⟩ := mem_subsAll.1 h
  have inner := sizeOf_le_of_mem_subs hmn
  have outer := sizeOf_lt_of_mem hn
  cases m with
  | mk i hd b as ns =>
    rw [nodes_mk] at outer
    simp only [mk.sizeOf_spec] at inner
    omega

/-- The names of the operations of trees. -/
def ids (ns : List Node) : List OpId := (subsAll ns).map id

@[simp] theorem ids_append (ms ns : List Node) : ids (ms ++ ns) = ids ms ++ ids ns := by simp [ids]

/-! ## 2. The values of a tree -/

/-- The values that a node defines itself. -/
def own (n : Node) : List ValueId := n.head.results ++ n.args

/-- The values that trees define. -/
def defs (ns : List Node) : List ValueId := (subsAll ns).flatMap own

@[simp] theorem defs_nil : defs [] = [] := rfl

theorem defs_cons (n : Node) (ns : List Node) : defs (n :: ns) = defs [n] ++ defs ns := by
  simp [defs]

@[simp] theorem defs_append (ms ns : List Node) : defs (ms ++ ns) = defs ms ++ defs ns := by
  simp [defs]

theorem defs_single (n : Node) : defs [n] = n.head.results ++ n.args ++ defs n.nodes := by
  simp [defs, subs_eq n, own]

theorem mem_defs {v : ValueId} : v ∈ defs ns ↔ ∃ m ∈ subsAll ns, v ∈ m.own := by
  simp [defs]

/-- The results of nodes that follow one another. -/
def outs (ns : List Node) : List ValueId := ns.flatMap fun n => n.head.results

@[simp] theorem outs_append (ms ns : List Node) : outs (ms ++ ns) = outs ms ++ outs ns := by
  simp [outs]

theorem outs_subset_defs (ns : List Node) : outs ns ⊆ defs ns := by
  intro v hv
  obtain ⟨n, hn, hvn⟩ := mem_flatMap.1 hv
  exact mem_defs.2 ⟨n, mem_subsAll_of_mem hn, mem_append_left _ hvn⟩

/-! ## 3. Trees in a graph -/

/-- The graph has the operation of a node, with its operands, results and body. -/
structure Here (g : Graph) (n : Node) : Prop where
  kind : g.kind n.id = n.head.kind
  operands : (g.op n.id).operands = n.head.operands
  results : (g.op n.id).results = n.head.results
  attr : (g.op n.id).attr = n.head.attr
  tys : n.head.tys = n.head.results.map g.ty
  body : (g.op n.id).body = n.body
  present : (g.op n.id).erased = false
  used : ∀ k v, n.head.operands[k]? = some v → ⟨n.id, k⟩ ∈ (g.value v).uses
  bodyArgs : ∀ b, n.body = some b → (g.block b).args = n.args
  bodyOps : ∀ b, n.body = some b → (g.block b).ops = n.nodes.map id
  noBody : n.body = none → n.args = [] ∧ n.nodes = []
  placed : ∀ m ∈ n.nodes, (g.op m.id).parent = n.body

theorem Here.body_of_nodes (h : Here g n) (hne : n.nodes ≠ []) : ∃ b, n.body = some b := by
  cases hb : n.body with
  | none => exact absurd (h.noBody hb).2 hne
  | some b => exact ⟨b, rfl⟩

theorem Here.body_of_args (h : Here g n) (hne : n.args ≠ []) : ∃ b, n.body = some b := by
  cases hb : n.body with
  | none => exact absurd (h.noBody hb).1 hne
  | some b => exact ⟨b, rfl⟩

theorem Here.child_mem (h : Here g n) (hm : m ∈ n.nodes) :
    ∃ c, n.body = some c ∧ m.id ∈ (g.block c).ops := by
  obtain ⟨c, hc⟩ := h.body_of_nodes (ne_nil_of_mem hm)
  exact ⟨c, hc, h.bodyOps c hc ▸ mem_map_of_mem hm⟩

/-- The graph has all nodes of the trees. -/
def Held (g : Graph) (ns : List Node) : Prop := ∀ m ∈ subsAll ns, Here g m

theorem Held.here (h : Held g ns) (hn : n ∈ ns) : Here g n :=
  h n (mem_subsAll_of_mem hn)

theorem Held.inner (h : Held g ns) (hn : n ∈ subsAll ns) : Held g n.nodes := fun m hm => by
  obtain ⟨k, hk, hmk⟩ := mem_subsAll.1 hm
  exact h m (subsAll_trans hn (subs_trans (mem_subs_of_mem_nodes hk) hmk))

theorem Held.single (h : Held g ns) (hn : n ∈ subsAll ns) : Held g [n] := fun m hm =>
  h m (subsAll_trans hn (by simpa using hm))

theorem Held.child (h : Held g [n]) (hm : m ∈ n.nodes) : Held g [m] :=
  h.single (nodes_mem_subsAll (mem_subsAll_of_mem mem_cons_self) hm)

theorem held_append : Held g (ms ++ ns) ↔ Held g ms ∧ Held g ns := by
  simp only [Held, subsAll_append, mem_append]
  exact ⟨fun h => ⟨fun m hm => h m (.inl hm), fun m hm => h m (.inr hm)⟩,
    fun h m hm => hm.elim (h.1 m) (h.2 m)⟩

theorem held_cons : Held g (n :: ns) ↔ Held g [n] ∧ Held g ns :=
  @held_append ns [n] g

@[simp] theorem held_nil (g : Graph) : Held g [] := by simp [Held]

theorem held_single : Held g [n] ↔ Here g n ∧ Held g n.nodes := by
  simp [Held, subs_eq n]

/-- A block is the body that is made of the given arguments and trees. -/
structure Holds (g : Graph) (b : BlockId) (args : List ValueId) (ns : List Node) : Prop where
  args : (g.block b).args = args
  ops : (g.block b).ops = ns.map id
  placed : ∀ n ∈ ns, (g.op n.id).parent = some b
  held : Held g ns

theorem Held.body {g : Graph} {ns : List Node} (h : Held g ns) {n : Node} (hn : n ∈ subsAll ns)
    {b : BlockId} (hb : n.body = some b) : Holds g b n.args n.nodes where
  args := (h n hn).bodyArgs b hb
  ops := (h n hn).bodyOps b hb
  placed m hm := hb ▸ (h n hn).placed m hm
  held := h.inner hn

/-- A graph has at most one tree for an operation, if its body can only be one. -/
theorem Here.unique (x : Here g m) (y : Here g n) (h : m.id = n.id)
    (hnodes : m.nodes.map id = n.nodes.map id → m.nodes = n.nodes) : m = n := by
  obtain ⟨i, hd, b, as, ms⟩ := m
  obtain ⟨j, hd', b', as', ns⟩ := n
  obtain ⟨⟩ : i = j := h
  obtain ⟨⟩ : b = b' := x.body.symm.trans y.body
  have hargs : as = as' := by
    cases b with
    | none => exact (x.noBody rfl).1.trans (y.noBody rfl).1.symm
    | some b => exact (x.bodyArgs b rfl).symm.trans (y.bodyArgs b rfl)
  have hids : ms.map id = ns.map id := by
    cases b with
    | none => exact congrArg (List.map id) ((x.noBody rfl).2.trans (y.noBody rfl).2.symm)
    | some b => exact (x.bodyOps b rfl).symm.trans (y.bodyOps b rfl)
  have hhead : hd = hd' := by
    have hr : hd.results = hd'.results := x.results.symm.trans y.results
    have ht : hd.tys = hd'.tys := x.tys.trans (hr ▸ y.tys.symm)
    have hk := x.kind.symm.trans y.kind
    have ho := x.operands.symm.trans y.operands
    have ha := x.attr.symm.trans y.attr
    cases hd
    cases hd'
    simp only [head_mk] at hk ho ha hr ht
    simp [hk, ho, hr, ht, ha]
  obtain ⟨⟩ : ms = ns := hnodes hids
  rw [hargs, hhead]

theorem Held.unique_all (hm : Held g ms) (hn : Held g ns) (h : ms.map id = ns.map id) :
    ms = ns := by
  induction ms using forest generalizing ns with
  | nil => exact (map_eq_nil_iff.1 h.symm).symm
  | cons m ms body rest =>
    obtain ⟨n, ns, rfl, hmn, hrest⟩ := map_eq_cons_iff.1 h.symm
    have x := held_single.1 (held_cons.1 hm).1
    have y := held_single.1 (held_cons.1 hn).1
    rw [x.1.unique y.1 hmn.symm (body x.2 y.2),
      rest (held_cons.1 hm).2 (held_cons.1 hn).2 hrest.symm]

theorem Held.unique (hm : Held g [m]) (hn : Held g [n]) (h : m.id = n.id) : m = n :=
  (List.cons.inj (hm.unique_all hn (by simp [h]))).1

/-! ## 4. Visible operands -/

theorem append_subset_append {α : Type} (us : List α) {V W : List α} (h : V ⊆ W) :
    us ++ V ⊆ us ++ W :=
  append_subset.2 ⟨subset_append_left _ _, List.Subset.trans h (subset_append_right _ _)⟩

mutual

/-- Every operand of a node, and of those nested in it, is visible, where `V` is visible around
it. -/
def Scoped : List ValueId → Node → Prop
  | V, mk _ h _ as ns => (∀ v ∈ h.operands, v ∈ V) ∧ ScopedAll (as ++ V) ns

/-- Every operand of the nodes is visible; each node sees the results of those before it. -/
def ScopedAll : List ValueId → List Node → Prop
  | _, [] => True
  | V, n :: ns => n.Scoped V ∧ ScopedAll (n.head.results ++ V) ns

end

theorem scoped_iff :
    n.Scoped V ↔ (∀ v ∈ n.head.operands, v ∈ V) ∧ ScopedAll (n.args ++ V) n.nodes := by
  cases n with
  | mk i h b as ns => simp [Scoped]

@[simp] theorem scopedAll_nil (V : List ValueId) : ScopedAll V [] := by simp [ScopedAll]

@[simp] theorem scopedAll_cons :
    ScopedAll V (n :: ns) ↔ n.Scoped V ∧ ScopedAll (n.head.results ++ V) ns := by
  simp [ScopedAll]

/-- What is visible may grow. -/
theorem ScopedAll.mono (hvw : V ⊆ W) (h : ScopedAll V ns) : ScopedAll W ns := by
  induction ns using forest generalizing V W with
  | nil => simp
  | cons n ns body rest =>
    rw [scopedAll_cons, scoped_iff] at h ⊢
    exact ⟨⟨fun v hv => hvw (h.1.1 v hv), body (append_subset_append _ hvw) h.1.2⟩,
      rest (append_subset_append _ hvw) h.2⟩

theorem Scoped.mono (hvw : V ⊆ W) (h : Scoped V n) : Scoped W n := by
  rw [scoped_iff] at h ⊢
  exact ⟨fun v hv => hvw (h.1 v hv), h.2.mono (append_subset_append _ hvw)⟩

theorem scopedAll_append :
    ScopedAll V (ms ++ ns) ↔ ScopedAll V ms ∧ ScopedAll (outs ms ++ V) ns := by
  induction ms generalizing V with
  | nil => simp [outs]
  | cons m ms ih =>
    have same : ScopedAll (outs ms ++ (m.head.results ++ V)) ns ↔
        ScopedAll (outs (m :: ms) ++ V) ns := by
      have perm : ∀ v, v ∈ outs ms ++ (m.head.results ++ V) ↔ v ∈ outs (m :: ms) ++ V := by
        intro v
        simp only [outs]
        grind
      exact ⟨ScopedAll.mono fun v hv => (perm v).1 hv, ScopedAll.mono fun v hv => (perm v).2 hv⟩
    simp only [cons_append, scopedAll_cons, ih, same, and_assoc]

/-! ## 5. Nesting -/

mutual

/-- How deep bodies are nested. -/
def depth : Node → Nat
  | mk _ _ _ _ ns => depthAll ns + 1

/-- How deep bodies are nested in trees. -/
def depthAll : List Node → Nat
  | [] => 0
  | n :: ns => max n.depth (depthAll ns)

end

theorem depth_eq (n : Node) : n.depth = depthAll n.nodes + 1 := by
  cases n with
  | mk i h b as ns => simp [depth]

theorem depth_le_of_mem (h : n ∈ ns) : n.depth ≤ depthAll ns := by
  induction ns with
  | nil => cases h
  | cons m ns ih =>
    simp only [depthAll]
    rcases mem_cons.1 h with rfl | h
    · omega
    · have := ih h
      omega

/-- Trees are not nested deeper than they have nodes. -/
theorem depthAll_le (ns : List Node) : depthAll ns ≤ (ids ns).length := by
  induction ns using forest with
  | nil => simp [depthAll]
  | cons n ns body rest =>
    simp only [ids, length_map] at body rest
    simp only [depthAll, depth_eq, ids, subsAll_cons, subs_eq, length_map, length_append,
      length_cons]
    omega

end Node

end ConvNest.Program
