/-
# Exchanging loops is all or nothing

`swapLoops` either finds that something is out of order and leaves the program as it is, or
exchanges two loops of a verified function (`swapLoops_outcome`).  Then the function is still
verified, the old loops are erased with all that is nested in them, and the new ones have taken
their place (`LoopsExchanged`).
-/
import ConvNest.Proofs.Attempts
import ConvNest.Proofs.Replacement
import ConvNest.Proofs.SwapChecks
import ConvNest.Proofs.SwapExchange

namespace ConvNest.Program

open Node List

/-! ## 1. What is around an operation -/

/-- A block that has an owner is the body of it. -/
def Graph.Owned (g : Graph) : Prop := ∀ b i, (g.block b).parentOp = some i → (g.op i).body = some b

section Around

variable {g : Graph} {n m : Node} {i : OpId}

theorem Graph.owned_of_blocks
    (h : ∀ k < g.blocks.size, ∀ i ∈ (g.block ⟨k⟩).parentOp.toList, (g.op i).body = some ⟨k⟩) :
    g.Owned := by
  intro b i hi
  by_cases hlt : b.idx < g.blocks.size
  · exact h b.idx hlt i (Option.mem_toList.2 hi)
  · rw [block_of_le _ (Nat.not_lt.1 hlt)] at hi
    cases hi

/-- An operation of a body is a node of the tree that has the body. -/
theorem Node.Held.child_of_parentOp (hg : Exact g) (howned : g.Owned) (h : Held g [n])
    (hm : m ∈ n.subs) (hi : g.parentOp i = some m.id) : i ∈ ids n.nodes := by
  obtain ⟨b, hb, hparent⟩ := Option.bind_eq_some_iff.1 hi
  have hhere : Here g m := h m (by simpa using hm)
  have hmem := hg.placed i b hb
  rw [hhere.bodyOps b (hhere.body.symm.trans (howned b m.id hparent))] at hmem
  obtain ⟨k, hk, rfl⟩ := mem_map.1 hmem
  rw [subs_eq, mem_cons] at hm
  rcases hm with rfl | hm
  · exact mem_map_of_mem (mem_subsAll_of_mem hk)
  · exact mem_map_of_mem (nodes_mem_subsAll hm hk)

/-- What has the root of a tree around it is a node of the tree. -/
theorem Node.Held.mem_of_ancestor (hg : Exact g) (howned : g.Owned) (h : Held g [n]) {k : Nat}
    (hi : n.id ∈ g.ancestorsWithin k i) : i ∈ ids n.nodes := by
  induction k generalizing i with
  | zero => cases hi
  | succ k ih =>
    rw [Graph.ancestorsWithin] at hi
    split at hi
    · next j hj =>
      rcases mem_cons.1 hi with rfl | hi
      · exact h.child_of_parentOp hg howned (self_mem_subs n) hj
      · obtain ⟨m, hm, rfl⟩ := mem_map.1 (ih hi)
        exact h.child_of_parentOp hg howned (by rw [subs_eq]; exact mem_cons_of_mem _ hm) hj
    · cases hi

/-- The root of a tree is found around its nodes in as many steps as they are nested deep. -/
theorem Node.Held.ancestor_of_below (hg : Sane g) (h : Held g [n]) (hn : g.OwnsBody n.id)
    (hm : Below n m) :
    m.depth ≤ n.depth ∧ (m = n ∨ ∀ k, n.depth ≤ k + m.depth → n.id ∈ g.ancestorsWithin k m.id) := by
  induction hm with
  | self => exact ⟨Nat.le_refl _, .inl rfl⟩
  | @child p m hp hmem ih =>
    have hdepth : m.depth + 1 ≤ p.depth := by
      rw [depth_eq p]
      exact Nat.succ_le_succ (depth_le_of_mem hmem)
    refine ⟨by omega, .inr fun k hk => ?_⟩
    obtain ⟨k, rfl⟩ : ∃ l, k = l + 1 := ⟨k - 1, by omega⟩
    have hp : p ∈ subsAll [n] := by simpa using hp.mem
    rw [Graph.ancestorsWithin, (h p hp).parentOp_eq (h.owns hg (by simpa using hn) hp) hmem]
    rcases ih.2 with rfl | hin
    · exact mem_cons_self
    · exact mem_cons_of_mem _ (hin k (by omega))

/-- An operation is around all that is nested in it. -/
theorem Node.Held.isAncestor (hg : Sane g) (h : Held g [n]) (hn : g.OwnsBody n.id)
    (hlt : n.id.idx < g.ops.size) (hm : m ∈ subsAll n.nodes) : g.isAncestor n.id m.id = true := by
  have hids : ∀ i ∈ ids [n], i.idx < g.ops.size := h.ids_lt hg (by simpa using hlt)
  have hdepth : n.depth ≤ g.ops.size := by
    simpa using h.depth_le_of_around hids nodup_nil (by simp) (by simp)
  have hbelow : Below n m := below_of_mem (by rw [subs_eq]; exact mem_cons_of_mem _ hm)
  rcases (h.ancestor_of_below hg hn hbelow).2 with rfl | hin
  · exact absurd (mem_map_of_mem hm) h.notMem_nodes
  · exact contains_iff_mem.2 (hin _ (Nat.le_add_right_of_le hdepth))

end Around

/-! ## 2. What an exchange leaves -/

section Kept

variable {i : OpId} {new : List Node} {σ : ValueId → ValueId} {n : Node} {ns : List Node}

/-- A node that is spared is still there. -/
theorem Node.replaced_mem :
    ∀ m ∈ sparedAll i ns, m.replaced i new σ ∈ subsAll (replacedAll i new σ ns) := by
  induction ns using forest with
  | nil => simp [sparedAll_nil]
  | cons n ns body rest =>
    intro m hm
    rw [replacedAll_cons, subsAll_append, mem_append]
    rcases mem_sparedAll_cons.1 hm with ⟨hn, rfl | hm⟩ | hm
    · simp [hn]
    · simp [hn, subs_eq, body m hm]
    · exact .inr (rest m hm)

end Kept

namespace Exchange

variable {f : FuncId} {b₀ : BlockId} {params : List ValueId} {T : List Node} {V : List ValueId}
  {n : Node} {b : BlockId} {pre rest : List OpId} {new : List Node} {values : List ValueId}
  {e e₁ e₂ : Editor} (x : Exchange f b₀ params T V n b pre rest new values e e₁ e₂) {j : OpId}
  {r : ValueId} {u : Use}

include x

theorem subtree : e.graph.subtree n.id = ids [n] := x.held.subtree x.start.sane x.id_lt

theorem contains_iff (j : OpId) : e.graph.Contains f j ↔ j ∈ ids T := by
  rw [x.before.holds.contains_iff x.before.body]
  exact mem_map.symm

theorem erased (hj : j ∈ e.graph.subtree n.id) : (e₂.graph.op j).erased = true := by
  rw [x.subtree] at hj
  have hlt := x.held.ids_lt x.start.sane (by simpa using x.id_lt) j hj
  exact x.rewired.erased j hj (Nat.lt_of_lt_of_le hlt x.emitted.grows.opsLe)

theorem new_mem {m : Node} (hm : m ∈ subsAll new) :
    m ∈ subsAll (replacedAll n.id new (subst n values) T) :=
  x.place.sublist.subset hm

/-- The operations around the exchanged one have at most got other operands. -/
theorem kept (hj : e.graph.Contains f j) (hnot : j ∉ e.graph.subtree n.id) :
    e₂.graph.Contains f j ∧ e₂.graph.op j = { e.graph.op j with
      operands := (e.graph.op j).operands.map (subst n values) } := by
  rw [x.contains_iff] at hj
  rw [x.subtree] at hnot
  obtain ⟨m, hm, rfl⟩ := mem_map.1 ((mem_spared_iff x.idsNodup x.mem).2 ⟨hj, hnot⟩)
  exact ⟨(x.valid.holds.contains_iff x.valid.body).2 ⟨_, replaced_mem m hm, replaced_id⟩,
    (x.op_spared hm).1⟩

/-- What is left uses nothing of what has been erased. -/
theorem unused {d : OpId} (hj : e₂.graph.Contains f j) (hd : d ∈ e.graph.subtree n.id)
    (hr : r ∈ (e.graph.op d).results) : r ∉ (e₂.graph.op j).operands := by
  intro hmem
  obtain ⟨hlt, howner⟩ := owner_of_mem_results x.start.sane hr
  have hdefining : e₂.graph.definingOp r = some d := by
    obtain ⟨us, hus⟩ := x.rewired.value r
    unfold Graph.definingOp
    rw [hus, x.emitted.grows.owner r hlt, howner]
  have hv := x.valid
  obtain ⟨m, hm, rfl⟩ := (hv.holds.contains_iff hv.body).1 hj
  rw [(hv.holds.held m hm).operands] at hmem
  obtain ⟨l, hl, rfl⟩ := mem_map.1 ((hv.sane.rooted hv.holds).definer_mem
    (operands_visible hv.inScope m hm r hmem) hdefining)
  exact absurd (x.erased hd) (by simp [(hv.holds.held l hl).present])

/-- The results of an operation are not used inside of it. -/
theorem user_notMem (hr : r ∈ n.head.results) (hu : u ∈ (e.graph.value r).uses) :
    u.op ∉ ids [n] := by
  intro hmem
  obtain ⟨m, hm, hid⟩ := mem_map.1 hmem
  have huse : r ∈ m.head.operands := by
    rw [← (x.held m hm).operands, hid]
    exact mem_of_getElem? (x.start.sane.used r u hu)
  obtain ⟨hops, hbody⟩ := scoped_iff.1 (x.place.scoped x.before.inScope)
  have hapart := x.place.apart x.apart
  have hout : r ∉ V := fun hv => hapart.outside r hv (by simp [defs_single, hr])
  rw [subsAll_cons, subsAll_nil, append_nil, subs_eq, mem_cons] at hm
  rcases hm with rfl | hm
  · exact hout (hops r huse)
  · have hnodup := hapart.nodup
    rw [defs_single] at hnodup
    have hvisible := operands_visible hbody m hm r huse
    grind

/-- Every use of a result has become a use of the value that takes its place. -/
theorem uses (hexact : Exact e.graph) {k : Nat} {r' : ValueId} (hr : n.head.results[k]? = some r)
    (hr' : values[k]? = some r') (hu : u ∈ (e.graph.value r).uses) :
    u ∈ (e₂.graph.value r').uses := by
  have hop := x.emitted.grows.op u.op (use_op_lt hexact.tidy hu)
  have hlisted : Listed e₁.graph u.op := (x.emitted.exact x.start hexact).listed u.op (by
    rw [hop]
    exact hexact.live r u hu)
  obtain ⟨hmoved, hlisted₂⟩ := x.rewired.op u.op (x.user_notMem (mem_of_getElem? hr) hu) hlisted
  refine hlisted₂ u.index r' ?_
  rw [hmoved, hop, getElem?_map, hexact.tidy.used r u hu]
  exact congrArg some (x.subst_result hr hr')

end Exchange

end ConvNest.Program

namespace ConvNest.Conv

open Program Node Edit

/-! ## 3. The exchanged loops -/

/-- What becomes of a verified function when two loops of it, `inner` directly in `outer`, are
exchanged for `inner'` directly in `outer'`. -/
structure LoopsExchanged (f : FuncId) (outer inner outer' inner' : OpId) (g g' : Graph) : Prop where
  verified : g'.verify f = .ok ()
  erased : inner ∈ g.subtree outer ∧ ∀ j ∈ g.subtree outer, (g'.op j).erased = true
  unused : ∀ j, g'.Contains f j →
    ∀ d ∈ g.subtree outer, ∀ r ∈ (g.op d).results, r ∉ (g'.op j).operands
  contained : g'.Contains f outer' ∧ g'.Contains f inner'
  nested : g'.parentOp inner' = some outer'
  outerBounds : ∃ b, g.bounds inner = .ok b ∧ g'.bounds outer' = .ok b
  innerBounds : ∃ b, g.bounds outer = .ok b ∧ g'.bounds inner' = .ok b
  types : (g'.op outer').results.map g'.ty = (g.op outer).results.map g.ty
  uses : ∀ (k : Nat) r r', (g.op outer).results[k]? = some r →
    (g'.op outer').results[k]? = some r' → ∀ u ∈ (g.value r).uses, u ∈ (g'.value r').uses
  kept : ∀ j, g.Contains f j → j ∉ g.subtree outer → g'.Contains f j ∧ g'.op j = { g.op j with
    operands := (g.op j).operands.map (moved ((g.op outer).results.zip (g'.op outer').results)) }

section Exchanged

variable {f : FuncId} {b₀ b : BlockId} {params V : List ValueId} {T sunk hoisted : List Node}
  {n n' : Node} {p : PairParts} {q : SwapStages} {pre rest : List OpId} {e e₁ e₂ : Editor}

theorem Builds.inner_mem (h : Builds V n p sunk hoisted q n') : q.inner' ∈ n'.nodes := by
  obtain ⟨_, _, _, _, _, _, _, _, _, -, -, -, rfl⟩ := h
  simp [regionNode]

theorem Builds.moved_mem (h : Builds V n p sunk hoisted q n') {m : Node}
    (hm : m ∈ subsAll q.moved') :
    m ∈ subsAll q.inner'.nodes := by
  obtain ⟨_, _, _, _, _, _, _, _, _, -, hstaged, -, -⟩ := h
  obtain ⟨_, _, _, -, hinner⟩ := hstaged.inner
  rw [hinner]
  simp [regionNode, hm]

/-- **New loops that have taken the place of the old ones exchange their bounds.** -/
theorem Builds.exchanged (x : Exchange f b₀ params T V n b pre rest [n'] n'.head.results e e₁ e₂)
    (h : Builds V n p sunk hoisted q n') (hpair : Threads V n p) (hexact : Exact e.graph)
    (hexact₂ : Exact e₂.graph) :
    LoopsExchanged f n.id p.inner.id n'.id q.inner'.id e.graph e₂.graph := by
  have hhere : Here e.graph n := x.held.here List.mem_cons_self
  have hmem' : n' ∈ subsAll [n'] := mem_subsAll_of_mem List.mem_cons_self
  have hinner_mem : q.inner' ∈ subsAll [n'] := nodes_mem_subsAll hmem' h.inner_mem
  have hhere' : Here e₂.graph n' := x.here_new hmem'
  have hin (m : Node) (hm : m ∈ subsAll [n']) : e₂.graph.Contains f m.id :=
    (x.valid.holds.contains_iff x.valid.body).2 ⟨m, x.new_mem hm, rfl⟩
  have hinner : Here e.graph p.inner := x.held p.inner (by
    simpa using mem_subs_of_mem_nodes hpair.inner_mem)
  have howns := x.valid.holds.owns x.valid.sane (x.new_mem hmem')
  refine
    { verified := x.valid.verify hexact₂
      erased := ⟨?_, fun j => x.erased⟩
      unused := fun j hj d hd r hr => x.unused hj hd hr
      contained := ⟨hin n' hmem', hin q.inner' hinner_mem⟩
      nested := hhere'.parentOp_eq howns h.inner_mem
      outerBounds := ?_
      innerBounds := ?_
      types := ?_
      uses := ?_
      kept := ?_ }
  · rw [x.subtree]
    exact List.mem_map_of_mem (by simpa using mem_subs_of_mem_nodes hpair.inner_mem)
  · obtain ⟨_, _, _, _, _, l, u, s, _, -, -, hops, rfl⟩ := h
    exact ⟨_, hinner.bounds_eq hops, hhere'.bounds_eq rfl⟩
  · obtain ⟨_, _, _, _, _, _, _, _, _, -, hstaged, -, -⟩ := h
    obtain ⟨l, u, s, hops, hloop⟩ := hstaged.inner
    exact ⟨_, hhere.bounds_eq hops, (x.here_new hinner_mem).bounds_eq (by rw [hloop]; rfl)⟩
  · rw [hhere'.results, hhere.results, ← x.types]
    exact List.map_congr_left fun v _ => x.ty_eq v
  · rw [hhere'.results, hhere.results]
    exact fun k r r' hr hr' u hu => x.uses hexact hr hr' hu
  · rw [hhere'.results, hhere.results]
    exact fun j hj hnot => x.kept hj hnot

/-- An operation in the inner loop that does not end its body is in the part that is copied. -/
theorem mem_body_of_isAncestor {g : Graph} {kernel : OpId} (hs : Sane g) (hexact : Exact g)
    (howned : g.Owned) (hpair : Threads V n p) (hheld : Held g [n])
    (hrules : ∀ m ∈ n.subs, Rules g m) (hin : g.isAncestor p.inner.id kernel = true)
    (hend : g.parentOp kernel = some p.inner.id → (g.kind kernel).isTerminator = false) :
    kernel ∈ ids p.body := by
  have hinner := hheld.child hpair.inner_mem
  obtain ⟨y, hnodes, hterm, -⟩ := hpair.innerBody
  have hy : y ∈ p.inner.nodes := by simp [hnodes]
  have hmem := hinner.mem_of_ancestor hexact howned (List.contains_iff_mem.1 hin)
  rw [hnodes, ids_append, List.mem_append] at hmem
  refine hmem.resolve_right fun hlast => ?_
  have hyhere : Here g y := hinner y (by simp [subs_eq p.inner, mem_subsAll_of_mem hy])
  have hleaf : y.nodes = [] := by
    have hyrules :=
      hrules y (subs_trans (mem_subs_of_mem_nodes hpair.inner_mem) (mem_subs_of_mem_nodes hy))
    refine (hyhere.noBody (hyrules.leafBody ?_)).2
    rw [Node.structured, Bool.or_eq_false_iff, beq_eq_false_iff_ne, beq_eq_false_iff_ne]
    constructor <;> (intro hk; rw [hk] at hterm; cases hterm)
  obtain rfl : kernel = y.id := by simpa [ids, subs_eq, hleaf] using hlast
  have hnot :=
    hend ((hinner.here List.mem_cons_self).parentOp_eq
      ((hheld.here List.mem_cons_self).owns hs hpair.inner_mem) hy)
  rw [hyhere.kind, hterm] at hnot
  cases hnot

/-- The copy of an operation of the inner loop is in the new inner loop. -/
theorem Builds.kernel (x : Exchange f b₀ params T V n b pre rest [n'] n'.head.results e e₁ e₂)
    (h : Builds V n p sunk hoisted q n') (hpair : Threads V n p) {kernel : OpId}
    (hk : kernel ∈ ids p.body) :
    ∃ kernel', q.whole.lookupOp kernel = some kernel' ∧ (e₂.graph.op kernel').erased = false ∧
      e₂.graph.isAncestor q.inner'.id kernel' = true ∧
      e₂.graph.kind kernel' = e.graph.kind kernel := by
  obtain ⟨_, _, _, _, _, _, _, _, _, -, hstaged, -, -⟩ := id h
  have hcopied := hstaged.moved
  obtain ⟨m, hm, rfl⟩ := List.mem_map.1 hk
  -- the copies stand in the order of what they are copies of
  obtain ⟨k, hlt, hget⟩ := List.getElem_of_mem (show m ∈ subsAll (sunk ++ p.body) by simp [hm])
  have hlt' : k < (subsAll q.moved').length := hcopied.maps.subsAll.length_eq ▸ hlt
  have hmaps := hcopied.maps.subsAll.get hlt hlt'
  simp only [List.get_eq_getElem, hget] at hmaps
  have hmem := h.moved_mem (List.getElem_mem hlt')
  have hinner : q.inner' ∈ subsAll [n'] :=
    nodes_mem_subsAll (mem_subsAll_of_mem List.mem_cons_self) h.inner_mem
  have hheld : Held e₂.graph [q.inner'] :=
    fun l hl => x.here_new (subsAll_trans hinner (by simpa using hl))
  have hhere : Here e₂.graph (subsAll q.moved')[k] :=
    hheld _ (by simpa [subs_eq q.inner'] using Or.inr hmem)
  refine ⟨(subsAll q.moved')[k].id, ?_, hhere.present, ?_, ?_⟩
  · have hops := congrArg (fun l => l[k]?) hcopied.ops
    simpa only [ids, List.getElem?_map, List.getElem?_eq_getElem hlt,
      List.getElem?_eq_getElem hlt', hget, Option.map_some, Option.some.injEq] using hops
  · exact hheld.isAncestor x.valid.sane (x.valid.holds.owns x.valid.sane (x.new_mem hinner))
      (x.valid.holds.ids_lt x.valid.sane _ (List.mem_map_of_mem (x.new_mem hinner))) hmem
  · have hold : Here e.graph m := x.held m (by simpa using hpair.subs_mem (.inr hm))
    rw [hhere.kind, hold.kind, hmaps.kind]

end Exchanged

/-! ## 4. All or nothing -/

section Outcome

variable {α β : Type} {e e₁ : Editor} {x : Attempt α} {k : α → Attempt β}

theorem run_bind_of_ok {a : α} (h : x.run e = .ok (.ok a) e₁) :
    (x >>= k).run e = (k a).run e₁ := by
  rw [ExceptT.run_bind]
  show EStateM.bind x.run _ e = _
  rw [EStateM.bind, h]

theorem run_bind_of_error {why : Failure} (h : x.run e = .ok (.error why) e₁) :
    (x >>= k).run e = .ok (.error why) e₁ := by
  show EStateM.bind x.run _ e = _
  rw [EStateM.bind, h]
  rfl

/-- A question that is settled leaves the program as it is. -/
theorem run_bind_settled {q : Inquiry α} {P : α → Prop} (hq : q.Settles P) (k : α → Attempt β) :
    (∃ a, q.run = .ok (.ok a) ∧ P a ∧ ((liftM q : Attempt α) >>= k).run e = (k a).run e) ∨
      ∃ d, ((liftM q : Attempt α) >>= k).run e = .ok (.error (.disorder d)) e := by
  rcases hq with ⟨a, ha, hp⟩ | ⟨d, hd⟩
  · exact .inl ⟨a, ha, hp, run_bind_of_ok (Attempt.run_inquiry_eq_ok.2 ⟨ha, rfl⟩)⟩
  · exact .inr ⟨d, run_bind_of_error (Edit.lift_ok.2 ⟨hd, rfl⟩)⟩

/-- **Exchanging loops is all or nothing.**  Either something is out of order and the program is as
it was, or the two loops have been exchanged, and the kernel of the nest is the copy of the old one
in the new loops.  `swapLoops` plans before it edits: `swapPlan` only reads, and once it has a plan
no edit of a verified function fails, if what inserts slices has a destination.  The terminator of
the inner body is not copied, so that it must not be the kernel (`swapLoops_loses_kernel`). -/
theorem swapLoops_outcome {f : FuncId} {h : LoopNest} (hs : Sane e.graph) (hexact : Exact e.graph)
    (howned : e.graph.Owned) (hf : e.graph.verify f = .ok ()) (hslices : InsertsSlices e.graph f)
    (hloops : ∀ i, some i ∈ h.loops.take 2 → (e.graph.op i).erased = true ∨ e.graph.Contains f i)
    (hkernel : ∀ i k, h.loops.head? = some (some i) → h.kernel = some k →
      e.graph.parentOp k = some i → (e.graph.kind k).isTerminator = false) :
    (∃ d, (swapLoops h).run e = .ok (.error (.disorder d)) e) ∨
    ∃ outer inner rest kernel outer' inner' kernel' e', h.loops = some inner :: some outer :: rest ∧
      h.kernel = some kernel ∧ (swapLoops h).run e = .ok (.ok { h with
        kernel := some kernel'
        loops := some inner' :: some outer' :: rest
        loopDims := exchangeFirst h.loopDims }) e' ∧
      LoopsExchanged f outer inner outer' inner' e.graph e'.graph ∧
      (e'.graph.op kernel').erased = false ∧
      e'.graph.isAncestor inner' kernel' = true ∧ e'.graph.kind kernel' = e.graph.kind kernel := by
  obtain ⟨b₀, params, T, hv⟩ := verify_tree hs hf
  rcases h with ⟨kernel, loops, dims, outerLoops⟩
  rcases loops with _ | ⟨inner, _ | ⟨outer, rest⟩⟩
  · exact .inl ⟨_, rfl⟩
  · exact .inl ⟨_, rfl⟩
  rcases kernel with _ | kernel
  · exact .inl ⟨_, rfl⟩
  have hplan := swapPlan_settles hv hslices
    (fun i (hi : outer = some i) => hloops i (by simp [hi])) fun i (hi : inner = some i) =>
    hloops i (by simp [hi])
  rw [swapLoops, run_bind_of_ok (Attempt.run_edit_eq_ok.2 (Edit.graph_ok.2 ⟨rfl, rfl⟩))]
  rcases run_bind_settled hplan _ with ⟨plan, -, ⟨o, i, rfl, rfl, ho, -, hp⟩, hrun⟩ | hd
  swap
  · exact .inl hd
  obtain ⟨n, hn, rfl⟩ := hv.node ho
  obtain ⟨V, hplace⟩ := place_of_mem hn params
  have hheld := hv.holds.held.single hn
  obtain ⟨p, hpair, rfl⟩ := hp.pair hv hplace
  obtain ⟨sunk, hoisted, hsplit, rfl⟩ := hp.splits hs hheld hpair
  rw [hrun]
  have hdemand := Inquiry.Settles.demand (e.graph.isAncestor p.inner.id kernel)
    (.kernelOutside (e.graph.kind kernel))
  rcases run_bind_settled hdemand _ with ⟨_, -, hin, hrun⟩ | hd
  swap
  · exact .inl hd
  rw [hrun]
  obtain ⟨b, pre, post, n', q, e₁, e₂, hexchange, hx, hbuilds, hkeeps⟩ :=
    exchange_builds hpair hsplit hv hplace
  have hbody := mem_body_of_isAncestor hs hexact howned hpair hheld
    (fun m hm => hv.rules m (subsAll_trans hn hm)) hin (hkernel _ _ rfl rfl)
  obtain ⟨kernel', hlookup, hlive, hinside, hkind⟩ := hbuilds.kernel hx hpair hbody
  have hexchanged := hbuilds.exchanged hx hpair hexact (hkeeps hexact)
  refine .inr ⟨n.id, p.inner.id, rest, kernel, n'.id, q.inner'.id, kernel', e₂, rfl, rfl, ?_,
    hexchanged, hlive, hinside, hkind⟩
  rw [run_bind_of_ok (Attempt.run_edit_eq_ok.2 hexchange)]
  simp only [hlookup]
  rfl

/-- Two loops that copy a matrix in tiles, with an operation that inserts a slice and has the given
operands at the start of the inner body. -/
def tileNest (operands : List ValueId) : Editor :=
  let build : Edit Unit := do
    let matrix := .tensor (.ofSizes .int32 [4, 8])
    let f ← newFunc "nest" [matrix, matrix]
    setPoint (pointAtEnd (← bodyOf f))
    let zero ← constIndex 0
    let four ← constIndex 4
    let eight ← constIndex 8
    let two ← constIndex 2
    let (outer, _) ← forLoop zero four two [⟨1⟩] fun i carried => do
      let (inner, _) ← forLoop zero eight four carried fun j carried => do
        discard (create .insertSlice operands [matrix] (.slice ⟨[0, 0], [4, 8]⟩) none)
        let tile ← extractSlice ⟨0⟩ [.dynamic i, .dynamic j] [.static 2, .static 4]
        let dest ← itemAt carried 0
        let dest ← insertSlice tile dest [.dynamic i, .dynamic j] [.static 2, .static 4]
        return ([dest], ())
      return ((← Edit.op inner).results, ())
    discard (funcReturn (← Edit.op outer).results)
  match build .empty with
  | .ok _ e => e
  | .error _ e => e

/-- The loops of the function, around the given kernel. -/
def tileLoops (kernel : OpId) : LoopNest := ⟨some kernel, [some ⟨5⟩, some ⟨4⟩], [], []⟩

theorem insertsSlices_of_funcOps {g : Graph} {f : FuncId}
    (h : ∀ i ∈ g.funcOps f, g.kind i = .insertSlice →
    2 ≤ (g.op i).operands.length ∧ (g.op i).results ≠ []) : InsertsSlices g f := by
  rintro i ⟨b, hb, hi⟩
  refine h i ?_
  rw [Graph.funcOps, hb]
  exact hi

/-- Whether the loops can be exchanged, and the new nest has a kernel then. -/
def keepsKernel? (kernel : OpId) (e : Editor) : Option Bool :=
  match (swapLoops (tileLoops kernel)).run e with
  | .ok (.ok h) _ => some h.kernel.isSome
  | _ => none

/-- Whether the attempt to exchange the loops ends by a fault. -/
def swapFaults (kernel : OpId) (e : Editor) : Bool :=
  match (swapLoops (tileLoops kernel)).run e with
  | .error _ _ => true
  | .ok _ _ => false

/-- The slice that is cut from the first matrix is the kernel of the exchanged loops. -/
theorem swapLoops_outcome_tiles :
    Sane (tileNest [⟨0⟩, ⟨0⟩]).graph ∧ (tileNest [⟨0⟩, ⟨0⟩]).graph.verify ⟨0⟩ = .ok () ∧
    ∃ outer' inner' kernel' e', (swapLoops (tileLoops ⟨7⟩)).run (tileNest [⟨0⟩, ⟨0⟩]) =
        .ok (.ok ⟨some kernel', [some inner', some outer'], [], []⟩) e' ∧
      LoopsExchanged ⟨0⟩ ⟨4⟩ ⟨5⟩ outer' inner' (tileNest [⟨0⟩, ⟨0⟩]).graph e'.graph ∧
      e'.graph.kind kernel' = .extractSlice := by
  have hsane : Sane (tileNest [⟨0⟩, ⟨0⟩]).graph := by decide +kernel
  have hverify : (tileNest [⟨0⟩, ⟨0⟩]).graph.verify ⟨0⟩ = .ok () :=
    toOption_eq_some.1 (by decide +kernel)
  have houter : (tileNest [⟨0⟩, ⟨0⟩]).graph.Contains ⟨0⟩ ⟨4⟩ :=
    ⟨⟨0⟩, by decide +kernel, by decide +kernel⟩
  have hinner : (tileNest [⟨0⟩, ⟨0⟩]).graph.Contains ⟨0⟩ ⟨5⟩ :=
    ⟨⟨0⟩, by decide +kernel, by decide +kernel⟩
  have hbefore : ((tileNest [⟨0⟩, ⟨0⟩]).graph.kind ⟨7⟩).isTerminator = false := by decide +kernel
  obtain ⟨d, hd⟩ | ⟨outer, inner, rest, kernel, outer', inner', kernel', e', hloops, hk, hrun, hex,
      -, -, hkind⟩ :=
    swapLoops_outcome (h := tileLoops ⟨7⟩) hsane (.of_sane hsane (by decide +kernel)
      (by decide +kernel)) (Graph.owned_of_blocks (by decide +kernel)) hverify
        (insertsSlices_of_funcOps (by decide +kernel))
      (fun i hi => by
        simp only [tileLoops, List.take_succ_cons, List.take_zero, List.mem_cons, Option.some.injEq,
          List.not_mem_nil, or_false] at hi
        rcases hi with rfl | rfl
        · exact .inr hinner
        · exact .inr houter)
      (fun i k _ hk _ => by
        obtain rfl : (⟨7⟩ : OpId) = k := Option.some.inj hk
        exact hbefore)
  · have hok : keepsKernel? ⟨7⟩ (tileNest [⟨0⟩, ⟨0⟩]) = some true := by decide +kernel
    rw [keepsKernel?, hd] at hok
    cases hok
  · cases hloops
    cases hk
    refine ⟨hsane, hverify, outer', inner', kernel', e', hrun, hex, hkind.trans ?_⟩
    decide +kernel

/-- The operation that ends the inner body is in the inner loop, but it is not copied: as the kernel
it is lost.  And an operation that inserts a slice but has no destination, which verification lets
through, ends the attempt by a fault. -/
theorem swapLoops_loses_kernel :
    (Sane (tileNest [⟨0⟩, ⟨0⟩]).graph ∧ (tileNest [⟨0⟩, ⟨0⟩]).graph.verify ⟨0⟩ = .ok () ∧
      (tileNest [⟨0⟩, ⟨0⟩]).graph.isAncestor ⟨5⟩ ⟨9⟩ = true ∧
      ∃ h e', (swapLoops (tileLoops ⟨9⟩)).run (tileNest [⟨0⟩, ⟨0⟩]) = .ok (.ok h) e' ∧
        h.kernel = none) ∧
    (Sane (tileNest [⟨0⟩]).graph ∧ (tileNest [⟨0⟩]).graph.verify ⟨0⟩ = .ok () ∧
      ∃ why e', (swapLoops (tileLoops ⟨7⟩)).run (tileNest [⟨0⟩]) = .error why e') := by
  have hlost : keepsKernel? ⟨9⟩ (tileNest [⟨0⟩, ⟨0⟩]) = some false := by decide +kernel
  have hfault : swapFaults ⟨7⟩ (tileNest [⟨0⟩]) = true := by decide +kernel
  refine ⟨⟨by decide +kernel, toOption_eq_some.1 (by decide +kernel), by decide +kernel, ?_⟩,
    by decide +kernel, toOption_eq_some.1 (by decide +kernel), ?_⟩
  · unfold keepsKernel? at hlost
    split at hlost
    · next h e' hrun => exact ⟨h, e', hrun, by simpa using hlost⟩
    · cases hlost
  · unfold swapFaults at hfault
    split at hfault
    · next why e' hrun => exact ⟨why, e', hrun⟩
    · cases hfault

end Outcome

end ConvNest.Conv
