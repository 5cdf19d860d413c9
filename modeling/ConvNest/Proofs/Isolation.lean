/-
# Copies of functions are isolated

A copy of a verified function says and does the same as the function (`FuncCopied.same`), and has
nothing in common with it: it is a region of the graph that nothing outside of it refers to
(`FuncCopied.secluded`).  So requests to a rewriter that speak of the function, or of anything else
outside of the copy, leave the copy as it is.
-/
import ConvNest.Proofs.Definedness
import ConvNest.Proofs.FuncCopy
import ConvNest.Proofs.Region
import ConvNest.Proofs.RewriteUses
import ConvNest.Proofs.TwinPrints
import ConvNest.Proofs.TwinRuns
import ConvNest.Proofs.TwinTrees
import ConvNest.Proofs.Verifiable

namespace ConvNest.Program

open Node Graph List

/-! ## 1. The region of a function -/

namespace Graph

/-- The operations of a function, each before those nested in it. -/
def funcOps (g : Graph) (f : FuncId) : List OpId :=
  (g.func f).body.elim [] fun b => (g.block b).ops.flatMap g.subtree

/-- The arguments of the body of an operation. -/
def bodyArgs (g : Graph) (i : OpId) : List ValueId :=
  (g.op i).body.elim [] fun c => (g.block c).args

/-- The values of a function: its parameters, and the results and arguments of its operations. -/
def funcValues (g : Graph) (f : FuncId) : List ValueId :=
  ((g.func f).body.elim [] fun b => (g.block b).args) ++
    (g.funcOps f).flatMap fun i => (g.op i).results ++ g.bodyArgs i

/-- The blocks of a function: its body, and those of its operations. -/
def funcBlocks (g : Graph) (f : FuncId) : List BlockId :=
  (g.func f).body.toList ++ (g.funcOps f).filterMap fun i => (g.op i).body

/-- Everything that a function consists of. -/
def funcRegion (g : Graph) (f : FuncId) : Region where
  ops i := i ∈ g.funcOps f
  values v := v ∈ g.funcValues f
  blocks b := b ∈ g.funcBlocks f

end Graph

/-- Everything that a block with the given arguments and trees consists of. -/
def treeRegion (b : BlockId) (params : List ValueId) (ns : List Node) : Region where
  ops i := i ∈ ids ns
  values v := v ∈ params ++ defs ns
  blocks c := c = b ∨ ∃ n ∈ subsAll ns, n.body = some c

section FuncRegions

variable {g : Graph} {f : FuncId} {b : BlockId} {params : List ValueId} {ns : List Node}

theorem flatMap_ids (ns : List Node) : ns.flatMap (fun n => ids [n]) = ids ns := by
  induction ns with
  | nil => rfl
  | cons n ns ih =>
    rw [flatMap_cons, ih, ← ids_append]
    rfl

theorem funcOps_eq (hb : (g.func f).body = some b) (h : Holds g b params ns) :
    g.funcOps f = ids ns := by
  unfold Graph.funcOps
  rw [hb, Option.elim_some, h.ops, flatMap_map, ← flatMap_ids ns]
  exact flatMap_congr fun n hn => h.subtree (mem_subsAll_of_mem hn)

theorem bodyArgs_eq {n : Node} (hn : Here g n) : g.bodyArgs n.id = n.args := by
  unfold Graph.bodyArgs
  rw [hn.body]
  cases hc : n.body with
  | none => exact (hn.noBody hc).1.symm
  | some c => exact hn.bodyArgs c hc

section

variable (hb : (g.func f).body = some b) (h : Holds g b params ns)

include hb h

theorem funcValues_eq : g.funcValues f = params ++ defs ns := by
  unfold Graph.funcValues
  rw [funcOps_eq hb h, hb, Option.elim_some, h.args, ids, flatMap_map]
  refine congrArg (params ++ ·) (flatMap_congr fun n hn => ?_)
  rw [(h.held n hn).results, bodyArgs_eq (h.held n hn)]
  rfl

theorem mem_funcBlocks {c : BlockId} :
    c ∈ g.funcBlocks f ↔ c = b ∨ ∃ n ∈ subsAll ns, n.body = some c := by
  unfold Graph.funcBlocks
  rw [funcOps_eq hb h, hb, mem_append, mem_filterMap]
  refine or_congr (by simp) ⟨?_, ?_⟩
  · rintro ⟨i, hi, hc⟩
    obtain ⟨n, hn, rfl⟩ := mem_map.1 hi
    exact ⟨n, hn, (h.held n hn).body.symm.trans hc⟩
  · rintro ⟨n, hn, hc⟩
    exact ⟨n.id, mem_map_of_mem hn, (h.held n hn).body.trans hc⟩

/-- The region of a function is that of its tree. -/
theorem funcRegion_eq : g.funcRegion f = treeRegion b params ns := by
  have hops (i : OpId) : (i ∈ g.funcOps f) = (i ∈ ids ns) := by rw [funcOps_eq hb h]
  have hvalues (v : ValueId) : (v ∈ g.funcValues f) = (v ∈ params ++ defs ns) := by
    rw [funcValues_eq hb h]
  have hblocks (c : BlockId) := propext (mem_funcBlocks hb h (c := c))
  unfold Graph.funcRegion treeRegion
  simp only [hops, hvalues, hblocks]

end

variable {v : ValueId} {c : BlockId} (h : Rooted g b params ns)

include h

/-- What defines a value of a block is an operation of the block. -/
theorem Rooted.definer_mem (hv : v ∈ params ++ defs ns) {d : OpId} (hd : g.definingOp v = some d) :
    d ∈ ids ns := by
  have howner : (g.value v).owner = .result d := by
    unfold Graph.definingOp at hd
    split at hd
    · next howner => rw [howner, Option.some.inj hd]
    · cases hd
  rcases mem_append.1 hv with hp | hdef
  · obtain ⟨k, hk⟩ := getElem?_of_mem hp
    cases howner.symm.trans (h.params k v hk).1
  · obtain ⟨n, hn, hown⟩ := mem_defs.1 hdef
    rcases mem_append.1 hown with hr | ha
    · obtain ⟨k, hk⟩ := getElem?_of_mem hr
      obtain rfl := Owner.result.inj (howner.symm.trans (h.results n hn k v hk).1)
      exact mem_map_of_mem hn
    · obtain ⟨k, hk⟩ := getElem?_of_mem ha
      obtain ⟨c, -, hc, -⟩ := h.args n hn k v hk
      cases howner.symm.trans hc

/-- The block of an operation of a tree is a block of the tree. -/
theorem Rooted.parent_mem {i : OpId} (hi : i ∈ ids ns) (hc : (g.op i).parent = some c) :
    (treeRegion b params ns).blocks c := by
  obtain ⟨n, hn, rfl⟩ := mem_map.1 hi
  rcases mem_or_child hn with hn | ⟨k, hk, hmem⟩
  · exact .inl (Option.some.inj (hc.symm.trans (h.holds.placed _ hn)))
  · exact .inr ⟨k, hk, ((h.holds.held k hk).placed n hmem).symm.trans hc⟩

/-- The block that a value of a tree is an argument of is a block of the tree. -/
theorem Rooted.argument_mem (hv : v ∈ params ++ defs ns) (hc : (g.value v).owner = .argument c) :
    (treeRegion b params ns).blocks c := by
  rcases mem_append.1 hv with hp | hdef
  · obtain ⟨k, hk⟩ := getElem?_of_mem hp
    exact .inl (Owner.argument.inj (hc.symm.trans (h.params k v hk).1))
  · obtain ⟨n, hn, hown⟩ := mem_defs.1 hdef
    rcases mem_append.1 hown with hr | ha
    · obtain ⟨k, hk⟩ := getElem?_of_mem hr
      cases hc.symm.trans (h.results n hn k v hk).1
    · obtain ⟨k, hk⟩ := getElem?_of_mem ha
      obtain ⟨c', hbody, hc', -⟩ := h.args n hn k v hk
      exact .inr ⟨n, hn, by rw [hbody, Owner.argument.inj (hc'.symm.trans hc)]⟩

end FuncRegions

/-! ## 2. A region that is kept -/

section Kept

variable {g₀ g : Graph} {b : BlockId} {params : List ValueId} {ns : List Node}

/-- What is true of a block and its trees stays true as long as their entries are as they were. -/
theorem Rooted.congr (hr : Rooted g₀ b params ns) (hscope : ScopedAll params ns)
    (hop : ∀ i ∈ ids ns, g.op i = g₀.op i)
    (hvalue : ∀ v ∈ params ++ defs ns, g.value v = g₀.value v)
    (hblock : ∀ c, (treeRegion b params ns).blocks c →
      (g.block c).args = (g₀.block c).args ∧ (g.block c).ops = (g₀.block c).ops) :
        Rooted g b params ns := by
  have hop {n : Node} (hn : n ∈ subsAll ns) : g.op n.id = g₀.op n.id := hop n.id (mem_map_of_mem hn)
  have hown {n : Node} (hn : n ∈ subsAll ns) {v : ValueId}
      (hv : v ∈ n.own) : g.value v = g₀.value v :=
    hvalue v (mem_append_right _ (mem_defs.2 ⟨n, hn, hv⟩))
  refine ⟨⟨(hblock b (.inl rfl)).1.trans hr.holds.args,
    (hblock b (.inl rfl)).2.trans hr.holds.ops, ?_, fun n hn => ?_⟩, ?_, ?_, ?_⟩
  · intro n hn
    rw [hop (mem_subsAll_of_mem hn)]
    exact hr.holds.placed n hn
  · refine (hr.holds.held n hn).congr (hop hn) (fun c hc => (hblock c (.inr ⟨n, hn, hc⟩)).1)
      (fun c hc => (hblock c (.inr ⟨n, hn, hc⟩)).2) (fun v hv => ?_) (fun k v hv hu => ?_)
      fun m hm => by rw [hop (nodes_mem_subsAll hn hm)]
    · rw [Graph.ty, hown hn (mem_append_left _ hv)]
      rfl
    · rw [hvalue v (operands_visible hscope n hn v (mem_of_getElem? hv))]
      exact hu
  · intro k v hv
    rw [hvalue v (mem_append_left _ (mem_of_getElem? hv))]
    exact hr.params k v hv
  · intro n hn k v hv
    rw [hown hn (mem_append_left _ (mem_of_getElem? hv))]
    exact hr.results n hn k v hv
  · intro n hn k v hv
    rw [hown hn (mem_append_right _ (mem_of_getElem? hv))]
    exact hr.args n hn k v hv

/-- The users of the values of a tree are operations of the tree. -/
def Private (g : Graph) (ns : List Node) : Prop :=
  ∀ n ∈ subsAll ns, ∀ r ∈ n.head.results, ∀ u ∈ (g.value r).uses,
    u.op ∈ ids ns ∧ (g.op u.op).operands[u.index]? = some r

theorem Private.congr (hp : Private g₀ ns) (hop : ∀ i ∈ ids ns, g.op i = g₀.op i)
    (hvalue : ∀ v ∈ params ++ defs ns, g.value v = g₀.value v) : Private g ns := by
  intro n hn r hr u hu
  rw [hvalue r (mem_append_right _ (mem_defs.2 ⟨n, hn, mem_append_left _ hr⟩))] at hu
  obtain ⟨huser, hoperand⟩ := hp n hn r hr u hu
  rw [hop u.op huser]
  exact ⟨huser, hoperand⟩

/-- The books about a tree are kept if only the tree uses what it defines. -/
theorem Private.books (hp : Private g ns) (hscope : ScopedAll params ns)
    (hr : Rooted g b params ns) :
    Books g ns where
  definers n hn v hv d hd := by
    obtain ⟨m, hm, rfl⟩ := mem_map.1 (hr.definer_mem (operands_visible hscope n hn v hv) hd)
    exact (hr.holds.held m hm).present
  uses n hn r hres u hu := by
    obtain ⟨huser, hoperand⟩ := hp n hn r hres u hu
    obtain ⟨m, hm, heq⟩ := mem_map.1 huser
    rw [← heq]
    exact ⟨(hr.holds.held m hm).present, heq ▸ hoperand⟩

end Kept

/-! ## 3. The copy of a function -/

section Copies

variable {e e' : Editor} {f : FuncId} {b : BlockId} {params : List ValueId} {ns ns' : List Node}
  {m : Mapping}
variable {g : Graph} {v : ValueId}

/-- The blocks of a function are in the graph. -/
theorem Valid.blocks_lt (hv : Valid g f b params ns) {c : BlockId}
    (hc : (treeRegion b params ns).blocks c) : c.idx < g.blocks.size := by
  rcases hc with rfl | ⟨n, hn, hc⟩
  · exact hv.body_lt
  · exact (hv.sane.body n.id c ((hv.holds.held n hn).body.trans hc))

/-- The values of a function are in the graph. -/
theorem Valid.values_lt (hv : Valid g f b params ns) (hmem : v ∈ params ++ defs ns) :
    v.idx < g.values.size := by
  rcases mem_append.1 hmem with hp | hd
  · exact (owner_of_mem_args hv.sane (hv.holds.args.symm ▸ hp)).1
  · exact hv.holds.held.defs_lt hv.sane v hd

/-- The names of the values of a copy. -/
theorem FuncCopied.values_eq (h : FuncCopied f params ns ns' m e e') :
    params.map m.lookup ++ defs ns' = (params ++ defs ns).map m.lookup := by
  rw [map_append, h.maps.defs]

theorem FuncCopied.value_new (h : FuncCopied f params ns ns' m e e')
    (hv : v ∈ params.map m.lookup ++ defs ns') : e.graph.values.size ≤ v.idx := by
  rw [h.values_eq] at hv
  obtain ⟨u, hu, rfl⟩ := mem_map.1 hv
  exact h.fresh u hu

section

variable (h : FuncCopied f params ns ns' m e e') (hv : Valid e.graph f b params ns)

include h hv

theorem FuncCopied.scoped :
    ScopedAll (params.map m.lookup) ns' :=
  h.maps.scoped hv.inScope

/-- A new operation that has an operand is one of the copy, and its operands are values of the
copy. -/
theorem FuncCopied.operand_mem {i : OpId} (hi : e.graph.ops.size ≤ i.idx)
    (hop : v ∈ (e'.graph.op i).operands) :
    i ∈ ids ns' ∧ v ∈ params.map m.lookup ++ defs ns' := by
  obtain ⟨k, hk⟩ := getElem?_of_mem hop
  obtain ⟨n, hn, rfl⟩ := mem_map.1 (h.covers i hi (lt_of_operand hk))
  rw [(h.holds.held n hn).operands] at hop
  exact ⟨mem_map_of_mem hn, operands_visible (h.scoped hv) n hn v hop⟩

/-- **Copying a function changes no value that was there, nor its uses.** -/
theorem FuncCopied.value_eq (hlt : v.idx < e.graph.values.size) :
    e'.graph.value v = e.graph.value v := by
  obtain ⟨us, heq, hus⟩ := h.value v hlt
  cases us with
  | nil => rw [heq, append_nil]
  | cons u us =>
    have hmem : u ∈ (e'.graph.value v).uses := by simp [heq]
    have hop := mem_of_getElem? (h.sane.used v u hmem)
    have hnew := h.value_new (h.operand_mem hv (hus u mem_cons_self) hop).2
    exact absurd hlt (Nat.not_lt.2 hnew)

/-- Only the copy uses what the copy defines. -/
theorem FuncCopied.user_mem (hx : Exact e.graph)
    (hmem : v ∈ params.map m.lookup ++ defs ns') {u : Use} (hu : u ∈ (e'.graph.value v).uses) :
    u.op ∈ ids ns' := by
  have hop := mem_of_getElem? (h.sane.used v u hu)
  by_cases hold : u.op.idx < e.graph.ops.size
  · rw [h.op _ hold] at hop
    exact absurd (hx.operands _ v hop) (Nat.not_lt.2 (h.value_new hmem))
  · exact (h.operand_mem hv (Nat.le_of_not_lt hold) hop).1

theorem FuncCopied.users_private (hx : Exact e.graph) : Private e'.graph ns' := by
  intro n hn r hr u hu
  have hmem := mem_append_right (params.map m.lookup) (mem_defs.2 ⟨n, hn, mem_append_left _ hr⟩)
  exact ⟨h.user_mem hv hx hmem hu, h.sane.used r u hu⟩

end

/-- The blocks of the copy are new. -/
theorem FuncCopied.block_new (h : FuncCopied f params ns ns' m e e')
    (hs : Sane e.graph) {c : BlockId}
    (hc : (treeRegion e.graph.nextBlock (params.map m.lookup) ns').blocks c) :
    e.graph.blocks.size ≤ c.idx := by
  rcases hc with rfl | ⟨n, hn, hc⟩
  · exact Nat.le_refl _
  · by_contra hlt
    have howner := h.holds.owns h.sane hn c ((h.holds.held n hn).body.trans hc)
    rw [h.block c (Nat.lt_of_not_le hlt)] at howner
    exact Nat.not_lt.2 (h.opsNew _ (mem_map_of_mem hn)) (hs.owner c n.id howner)

variable {f' : FuncId} (h : FuncCopied f params ns ns' m e e') (hv : Valid e.graph f b params ns)

include h hv

/-- The function that was copied is still there. -/
theorem FuncCopied.holds_old : Holds e'.graph b params ns := by
  refine ((hv.sane.rooted hv.holds).congr hv.inScope
    (fun i hi => h.op i (hv.holds.ids_lt hv.sane i hi))
    (fun v hmem => h.value_eq hv (hv.values_lt hmem)) fun c hc => ?_).holds
  rw [h.block c (hv.blocks_lt hc)]
  exact ⟨rfl, rfl⟩

/-- Nothing outside of the copy refers to anything in it. -/
theorem FuncCopied.closed (hx : Exact e.graph) :
    Closed (treeRegion e.graph.nextBlock (params.map m.lookup) ns') e'.graph := by
  have hr := h.sane.rooted h.holds
  have hnew {c : BlockId} := h.block_new hv.sane (c := c)
  refine ⟨fun i hi => ?_, fun v hout u hu huser => ?_,
    fun c hc => ⟨fun v hmem hval => ?_, fun i hi hop => ?_⟩⟩
  · by_cases hold : i.idx < e.graph.ops.size
    · rw [h.op i hold]
      refine ⟨fun v hop hval => ?_, fun v hres hval => ?_, fun c hc hblock => ?_,
        fun c hc hblock => ?_⟩
      · exact Nat.not_lt.2 (h.value_new hval) (hx.operands i v hop)
      · exact Nat.not_lt.2 (h.value_new hval) (hx.results i v hres)
      · exact Nat.not_lt.2 (hnew hblock) (hv.sane.body i c hc)
      · exact Nat.not_lt.2 (hnew hblock) (lt_of_listed (hx.placed i c hc))
    · have hge : e'.graph.ops.size ≤ i.idx := by
        by_contra hlt
        exact hi (h.covers i (Nat.le_of_not_lt hold) (Nat.lt_of_not_le hlt))
      rw [e'.graph.op_of_le hge]
      exact ⟨forall_mem_nil _, forall_mem_nil _, fun _ hc => (Option.some_ne_none _ hc.symm).elim,
        fun _ hc => (Option.some_ne_none _ hc.symm).elim⟩
  · obtain ⟨n, hn, heq⟩ := mem_map.1 huser
    have hop := mem_of_getElem? (h.sane.used v u hu)
    rw [← heq, (h.holds.held n hn).operands] at hop
    exact hout (operands_visible (h.scoped hv) n hn v hop)
  · obtain ⟨k, hk⟩ := getElem?_of_mem hmem
    exact hc (hr.argument_mem hval (h.sane.args c k v hk).2.1)
  · exact hc (hr.parent_mem hop (h.sane.parent c i hi).2)

/-- **The copy of a function is a region of its own.** -/
theorem FuncCopied.secluded (hx : Exact e.graph) :
    Secluded (treeRegion e.graph.nextBlock (params.map m.lookup) ns') e'.graph e'.graph where
  closed := h.closed hv hx
  opsLt i hi := h.holds.ids_lt h.sane i hi
  valuesLt v hmem := by
    rcases mem_append.1 hmem with hp | hd
    · exact (owner_of_mem_args h.sane (h.holds.args.symm ▸ hp)).1
    · exact h.holds.held.defs_lt h.sane v hd
  blocksLt c hc := by
    rcases hc with rfl | ⟨n, hn, hc⟩
    · exact h.bodyLt
    · exact (h.sane.body n.id c ((h.holds.held n hn).body.trans hc))
  op _ _ := rfl
  value _ _ := rfl
  block _ _ := rfl
  funcs := rfl

/-- **A graph that has a copy as it was made says and does with it what it did with the
function.** -/
theorem FuncCopied.same (hname : (g.func f').name = (e.graph.func f).name)
    (hbody : (g.func f').body = some e.graph.nextBlock)
    (hr : Rooted g e.graph.nextBlock (params.map m.lookup) ns') (hp : Private g ns')
    (htypes : ∀ v ∈ params.map m.lookup ++ defs ns', g.ty v = e'.graph.ty v) :
    g.verify f' = .ok () ∧ g.print f' = e.graph.print f ∧
    ∀ args, g.run f' args = e.graph.run f args := by
  have hty : ∀ v ∈ params ++ defs ns, g.ty (m.lookup v) = e.graph.ty v := fun v hmem => by
    rw [htypes _ (h.values_eq ▸ mem_map_of_mem hmem), h.types v hmem]
  have htwin := twinFuncs_of_maps hname hv.body hbody (hv.sane.rooted hv.holds)
    hr hv.inScope h.maps hty h.inj
  refine ⟨verify_of_tree hbody hr.holds (h.scoped hv) (fun n' hn' => ?_) (h.maps.ends hv.ends)
    (hp.books (h.scoped hv) hr), htwin.print, htwin.run⟩
  obtain ⟨n, hn, hmap⟩ := exists_of_forall₂_mem h.maps.subsAll hn'
  exact natural_rules hmap.like (fun v hmem => hty v (names_visible hv.inScope n hn v hmem))
    (hv.rules n hn)

/-- A graph that has the entries of a copy as they were made. -/
theorem FuncCopied.same_of_entries (hx : Exact e.graph)
    (hname : (g.func f').name = (e.graph.func f).name)
    (hbody : (g.func f').body = some e.graph.nextBlock)
    (hop : ∀ i ∈ ids ns', g.op i = e'.graph.op i)
    (hvalue : ∀ v ∈ params.map m.lookup ++ defs ns', g.value v = e'.graph.value v)
    (hblock : ∀ c, (treeRegion e.graph.nextBlock (params.map m.lookup) ns').blocks c →
      (g.block c).args = (e'.graph.block c).args ∧ (g.block c).ops = (e'.graph.block c).ops) :
    g.verify f' = .ok () ∧ g.print f' = e.graph.print f ∧
    ∀ args, g.run f' args = e.graph.run f args :=
  h.same hv hname hbody ((h.sane.rooted h.holds).congr (h.scoped hv) hop hvalue hblock)
    ((h.users_private hv hx).congr hop hvalue) fun v hmem => congrArg Value.ty (hvalue v hmem)

end Copies

/-! ## 4. References -/

/-- An entry of a graph. -/
inductive Part where
  | op (i : OpId)
  | value (v : ValueId)
  | block (b : BlockId)

/-- An entry of the graph refers to another one. -/
inductive Graph.Refers (g : Graph) : Part → Part → Prop
  | operand {i v} (h : v ∈ (g.op i).operands) : Refers g (.op i) (.value v)
  | result {i v} (h : v ∈ (g.op i).results) : Refers g (.op i) (.value v)
  | body {i b} (h : (g.op i).body = some b) : Refers g (.op i) (.block b)
  | parent {i b} (h : (g.op i).parent = some b) : Refers g (.op i) (.block b)
  | use {v u} (h : u ∈ (g.value v).uses) : Refers g (.value v) (.op u.op)
  | arg {b v} (h : v ∈ (g.block b).args) : Refers g (.block b) (.value v)
  | inside {b i} (h : i ∈ (g.block b).ops) : Refers g (.block b) (.op i)

/-- The entry is in the region. -/
def Region.Has (R : Region) : Part → Prop
  | .op i => R.ops i
  | .value v => R.values v
  | .block b => R.blocks b

/-- A reference does not lead into the region or out of it, if the books of the graph are kept and
only the region uses its values. -/
theorem refers_has {g : Graph} (hg : Sane g) {b : BlockId} {params : List ValueId} {ns : List Node}
    (hns : Holds g b params ns) (hscope : ScopedAll params ns)
    (hclosed : Closed (treeRegion b params ns) g)
    (husers : ∀ v ∈ params ++ defs ns, ∀ u ∈ (g.value v).uses, u.op ∈ ids ns) {p q : Part}
    (h : g.Refers p q) : (treeRegion b params ns).Has p ↔ (treeRegion b params ns).Has q := by
  have hown {n : Node} (hn : n ∈ subsAll ns) {v : ValueId}
      (hv : v ∈ n.own) : v ∈ params ++ defs ns :=
    mem_append_right _ (mem_defs.2 ⟨n, hn, hv⟩)
  -- out of the region: by what the tree is made of; into it: because it is closed
  cases h with
  | @operand i v h =>
    refine ⟨fun hi => ?_, fun hv => by_contra fun hi => (hclosed.op i hi).operands v h hv⟩
    obtain ⟨n, hn, rfl⟩ := mem_map.1 hi
    exact operands_visible hscope n hn v ((hns.held n hn).operands ▸ h)
  | @result i v h =>
    refine ⟨fun hi => ?_, fun hv => by_contra fun hi => (hclosed.op i hi).results v h hv⟩
    obtain ⟨n, hn, rfl⟩ := mem_map.1 hi
    exact hown hn (mem_append_left _ ((hns.held n hn).results ▸ h))
  | @body i c h =>
    refine ⟨fun hi => ?_, fun hc => by_contra fun hi => (hclosed.op i hi).body c h hc⟩
    obtain ⟨n, hn, rfl⟩ := mem_map.1 hi
    exact .inr ⟨n, hn, (hns.held n hn).body.symm.trans h⟩
  | @parent i c h =>
    exact ⟨fun hi => (hg.rooted hns).parent_mem hi h,
      fun hc => by_contra fun hi => (hclosed.op i hi).parent c h hc⟩
  | @use v u h =>
    exact ⟨fun hv => husers v hv u h, fun hu => by_contra fun hv => hclosed.users v hv u h hu⟩
  | @arg c v h =>
    refine ⟨fun hc => ?_, fun hv => by_contra fun hc => (hclosed.block c hc).args v h hv⟩
    rcases hc with rfl | ⟨n, hn, hc⟩
    · exact mem_append_left _ (hns.args ▸ h)
    · exact hown hn (mem_append_right _ ((hns.held n hn).bodyArgs c hc ▸ h))
  | @inside c i h =>
    refine ⟨fun hc => ?_, fun hi => by_contra fun hc => (hclosed.block c hc).ops i h hi⟩
    rcases hc with rfl | ⟨n, hn, hc⟩
    · rw [hns.ops] at h
      obtain ⟨k, hk, rfl⟩ := mem_map.1 h
      exact mem_map_of_mem (mem_subsAll_of_mem hk)
    · rw [(hns.held n hn).bodyOps c hc] at h
      obtain ⟨k, hk, rfl⟩ := mem_map.1 h
      exact mem_map_of_mem (nodes_mem_subsAll hn hk)

/-! ## 5. Duplicates -/

/-- The function `c` of the second editor is a duplicate of the function `f` of the first one, on
its own. -/
structure Duplicate (f c : FuncId) (m : Mapping) (e e' : Editor) : Prop where
  /-- Nothing that was there has changed. -/
  rest : e' = { e with graph := e'.graph }
  op : ∀ i, i.idx < e.graph.ops.size → e'.graph.op i = e.graph.op i
  value : ∀ v, v.idx < e.graph.values.size → e'.graph.value v = e.graph.value v
  block : ∀ b, b.idx < e.graph.blocks.size → e'.graph.block b = e.graph.block b
  func : ∀ k, k.idx < e.graph.funcs.size → e'.graph.func k = e.graph.func k
  /-- The two functions say and do the same. -/
  verified : e'.graph.verify c = .ok ()
  print : e'.graph.print c = e.graph.print f
  run : ∀ args, e'.graph.run c args = e.graph.run f args
  /-- The mapping takes the operations and values of one function to those of the other, one by
  one. -/
  ops : (e.graph.funcOps f).map m.lookupOp = (e'.graph.funcOps c).map some
  opsNodup : (e.graph.funcOps f).Nodup ∧ (e'.graph.funcOps c).Nodup
  values : (e.graph.funcValues f).map m.lookup = e'.graph.funcValues c
  valuesNodup : (e.graph.funcValues f).Nodup ∧ (e'.graph.funcValues c).Nodup
  /-- They have no operation and no value in common, and no chain of references connects them. -/
  opsApart : (e'.graph.funcOps f).Disjoint (e'.graph.funcOps c)
  valuesApart : (e'.graph.funcValues f).Disjoint (e'.graph.funcValues c)
  apart : ∀ b b', (e'.graph.func f).body = some b → (e'.graph.func c).body = some b' →
    ¬ Relation.EqvGen e'.graph.Refers (.block b) (.block b')
  /-- Requests that do not speak of the duplicate leave it as it is. -/
  kept : ∀ rs : List Rewrite, (∀ r ∈ rs, r.Avoids (e'.graph.funcRegion c)) →
    (∀ i ∈ e'.graph.funcOps c, (Rewrite.runAll rs e').graph.op i = e'.graph.op i) ∧
    (∀ v ∈ e'.graph.funcValues c, (Rewrite.runAll rs e').graph.value v = e'.graph.value v) ∧
    (∀ b ∈ e'.graph.funcBlocks c, (Rewrite.runAll rs e').graph.block b = e'.graph.block b) ∧
    (Rewrite.runAll rs e').graph.verify c = .ok () ∧
    (Rewrite.runAll rs e').graph.print c = e.graph.print f ∧
    ∀ args, (Rewrite.runAll rs e').graph.run c args = e.graph.run f args

section Duplicates

variable {e e' : Editor} {f : FuncId} {b : BlockId} {params : List ValueId} {ns ns' : List Node}
  {m : Mapping}

theorem FuncCopied.func_old (h : FuncCopied f params ns ns' m e e') {k : FuncId}
    (hk : k.idx < e.graph.funcs.size) : e'.graph.func k = e.graph.func k := by
  unfold Graph.func
  rw [h.funcs]
  simp [Array.getElem?_push, Nat.ne_of_lt hk]

theorem FuncCopied.func_new (h : FuncCopied f params ns ns' m e e') :
    e'.graph.func e.graph.nextFunc = ⟨(e.graph.func f).name, some e.graph.nextBlock⟩ := by
  show e'.graph.funcs.getD e.graph.funcs.size default = _
  rw [h.funcs]
  simp

/-- A function that has a body is one of the graph. -/
theorem lt_of_body {g : Graph} (h : (g.func f).body = some b) : f.idx < g.funcs.size := by
  by_contra hge
  unfold Graph.func at h
  rw [Array.getD_eq_getD_getElem?, Array.getElem?_eq_none (Nat.le_of_not_lt hge)] at h
  cases h

section

variable (h : FuncCopied f params ns ns' m e e') (hv : Valid e.graph f b params ns)

include h hv

/-- What a chain of references connects is both in the copy or both outside of it. -/
theorem FuncCopied.connected (hx : Exact e.graph) {p q : Part}
    (hchain : Relation.EqvGen e'.graph.Refers p q) :
    (treeRegion e.graph.nextBlock (params.map m.lookup) ns').Has p ↔
      (treeRegion e.graph.nextBlock (params.map m.lookup) ns').Has q := by
  induction hchain with
  | rel p q hpq =>
    exact refers_has h.sane h.holds (h.scoped hv) (h.closed hv hx)
      (fun v hmem u => h.user_mem hv hx hmem) hpq
  | refl p => exact Iff.rfl
  | symm p q _ ih => exact ih.symm
  | trans p q r _ _ ih ih' => exact ih.trans ih'

theorem FuncCopied.duplicate (he : Booked e) : Duplicate f e.graph.nextFunc m e e' := by
  have hname := congrArg Func.name h.func_new
  have hbody := congrArg Func.body h.func_new
  have hbody' : (e'.graph.func f).body = some b := by
    rw [h.func_old (lt_of_body hv.body)]
    exact hv.body
  have hsecluded := h.secluded hv he.exact
  have hsame {g : Graph}
    (hg : Secluded (treeRegion e.graph.nextBlock (params.map m.lookup) ns') e'.graph g) :
      g.verify e.graph.nextFunc = .ok () ∧ g.print e.graph.nextFunc = e.graph.print f ∧
        ∀ args, g.run e.graph.nextFunc args = e.graph.run f args := by
    have hfunc : g.func e.graph.nextFunc = e'.graph.func e.graph.nextFunc := by
      unfold Graph.func
      rw [hg.funcs]
    refine h.same_of_entries hv he.exact (by rw [hfunc, hname])
      (by rw [hfunc, hbody]) hg.op hg.value fun c hc => ?_
    rw [hg.block c hc]
    exact ⟨rfl, rfl⟩
  have hkept {rs : List Rewrite} (hrs : ∀ r ∈ rs, r.Avoids (e'.graph.funcRegion e.graph.nextFunc)) :
      Secluded (treeRegion e.graph.nextBlock (params.map m.lookup) ns') e'.graph
        (Rewrite.runAll rs e').graph := by
    rw [funcRegion_eq hbody h.holds] at hrs
    refine (Rewrite.runAll_spares hrs ⟨hsecluded, fun c hc hnew => ?_⟩).graph
    rw [h.only] at hc
    exact Nat.not_lt.2 (h.block_new hv.sane hnew) (he.point c hc)
  obtain ⟨hverified, hprint, hrun⟩ := hsame hsecluded
  refine
    { rest := h.only
      op := h.op
      value := fun v hlt => h.value_eq hv hlt
      block := h.block
      func := fun k => h.func_old
      verified := hverified
      print := hprint
      run := hrun
      ops := ?_
      opsNodup := ?_
      values := ?_
      valuesNodup := ?_
      opsApart := ?_
      valuesApart := ?_
      apart := ?_
      kept := ?_ }
  · rw [funcOps_eq hv.body hv.holds, funcOps_eq hbody h.holds]
    exact h.ops
  · rw [funcOps_eq hv.body hv.holds, funcOps_eq hbody h.holds]
    exact ⟨hv.holds.ids_nodup hv.sane, h.holds.ids_nodup h.sane⟩
  · rw [funcValues_eq hv.body hv.holds, funcValues_eq hbody h.holds, h.values_eq]
  · rw [funcValues_eq hv.body hv.holds, funcValues_eq hbody h.holds]
    exact ⟨hv.holds.nodup hv.sane, h.holds.nodup h.sane⟩
  · rw [funcOps_eq hbody' (h.holds_old hv), funcOps_eq hbody h.holds]
    exact fun i hi hi' => Nat.not_lt.2 (h.opsNew i hi') (hv.holds.ids_lt hv.sane i hi)
  · rw [funcValues_eq hbody' (h.holds_old hv), funcValues_eq hbody h.holds]
    exact fun v hmem hmem' => Nat.not_lt.2 (h.value_new hmem') (hv.values_lt hmem)
  · intro c c' hc hc' hchain
    cases hbody'.symm.trans hc
    cases hbody.symm.trans hc'
    have hhas := h.connected hv he.exact hchain
    exact Nat.not_lt.2 (h.block_new hv.sane (hhas.2 (.inl rfl))) (hv.blocks_lt (.inl rfl))
  · intro rs hrs
    have hg := hkept hrs
    rw [funcOps_eq hbody h.holds, funcValues_eq hbody h.holds]
    refine ⟨hg.op, hg.value, fun c hc => hg.block c ((mem_funcBlocks hbody h.holds).1 hc), hsame hg⟩

end

/-- **A copy of a verified function is a duplicate of it, on its own.**  `cloneFunc` copies the body
operation by operation and renames what has been copied, so that print, verification and runs of the
two agree.  All that the copy is made of is new, and what an operation refers to is defined in its
own function, so that no request that avoids the copy gets to it. -/
theorem cloneFunc_duplicate (hs : Sane e.graph) (he : Booked e) (hf : e.graph.verify f = .ok ()) :
    ∃ c m e', Edit.cloneFunc f e = .ok (c, m) e' ∧ Duplicate f c m e e' := by
  obtain ⟨b, params, ns, hv⟩ := verify_tree hs hf
  obtain ⟨m, ns', e', hrun, h⟩ := Edit.cloneFunc_ok hv
  exact ⟨_, m, e', hrun, h.duplicate hv he⟩

theorem doubler_sane : Sane doubler.graph := by decide +kernel

theorem doubler_booked : Booked doubler := by
  refine ⟨.of_sane doubler_sane (by decide +kernel) (by decide +kernel), fun b hb => ?_⟩
  have hpoint : doubler.point.block = some ⟨0⟩ := by decide +kernel
  cases hpoint.symm.trans hb
  decide +kernel

theorem doubler_verify : doubler.graph.verify ⟨0⟩ = .ok () := toOption_eq_some.1 (by decide +kernel)

/-- A loop around a generic operation can be copied, and the copy is on its own. -/
theorem cloneFunc_duplicate_doubler :
    Sane doubler.graph ∧ Booked doubler ∧ doubler.graph.verify ⟨0⟩ = .ok () ∧
      ∃ c m e', Edit.cloneFunc ⟨0⟩ doubler = .ok (c, m) e' ∧ Duplicate ⟨0⟩ c m doubler e' :=
  ⟨doubler_sane, doubler_booked, doubler_verify,
    cloneFunc_duplicate doubler_sane doubler_booked doubler_verify⟩

end Duplicates

end ConvNest.Program
