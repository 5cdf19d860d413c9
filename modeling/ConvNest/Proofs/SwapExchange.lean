/-
# Exchanged loops take the place of the old ones

Building the new loops never fails (`outerBody_emits`), and they take the place of the old ones
(`exchange_builds`).  What they are made of is in `Builds`.  Loops that carry one value are then
`Swapped` (`Builds.swapped`).
-/
import ConvNest.Proofs.RewriteUses
import ConvNest.Proofs.SwapEmission
import ConvNest.Proofs.SwapParts

namespace ConvNest.Conv

open Program Node Edit List

section Loops

variable {V carried inits : List ValueId} {n : Node} {p : PairParts} {sunk hoisted : List Node}
  (hpair : Threads V n p) (hsplit : Splits V p sunk hoisted) {g : Graph} {l u s : ValueId}
variable {e eo : Editor} {c : BlockId} {W ds : List ValueId} {post pre : List OpId} {iv : ValueId}

include hpair

theorem outer_operands (hst : Stands V n g) : ∃ l u s,
    n.head.operands = l :: u :: s :: p.inits ∧ (∀ v ∈ [l, u, s], g.ty v = .index) ∧
      (∀ v ∈ [l, u, s], v ∈ V) ∧ ∀ v ∈ p.inits, v ∈ V := by
  obtain ⟨l, u, s, inits, -, -, hops, -, hbounds⟩ :=
    loop_parts (hst.rules n (by rw [subs_eq]; simp)) hpair.outerKind
  obtain rfl : inits = p.inits := by simpa [hops] using hpair.outerInits
  have hV : ∀ v ∈ n.head.operands, v ∈ V := (scoped_iff.1 hst.inScope).1
  rw [hops] at hV
  exact ⟨l, u, s, hops, hbounds, fun v hv => hV v (mem_append_left p.inits hv),
    fun v hv => hV v (by simp [hv])⟩

theorem inner_operands (hst : Stands V n g) : ∃ l u s,
    p.inner.head.operands = l :: u :: s :: p.outerCarried ∧ (∀ v ∈ [l, u, s], g.ty v = .index) ∧
      ∀ v ∈ [l, u, s], v ∈ V := by
  obtain ⟨l, u, s, inits, -, -, hops, -, hbounds⟩ :=
    loop_parts (hst.rules p.inner (mem_subs_of_mem_nodes hpair.inner_mem)) hpair.innerKind
  obtain rfl : inits = p.outerCarried := by simpa [hops] using hpair.innerInits
  exact ⟨l, u, s, hops, hbounds, fun v hv => hpair.innerBounds v (by rw [hops]; exact hv)⟩

/-! ## 1. Loops that have been opened -/

omit hpair in
/-- A loop has been opened that starts from the values `inits`. -/
structure OpensLoop (V : List ValueId) (n : Node) (W : List ValueId) (e eo : Editor) (c : BlockId)
    (iv : ValueId) (carried inits : List ValueId) : Prop where
  visible : ∀ w ∈ W, w.idx < e.graph.values.size
  next : e.graph.nextValues (inits.length + 1) = iv :: carried
  grows : Extends e.graph eo.graph (some c)
  stands : Stands V n eo.graph
  start : Start (iv :: carried ++ W) e.graph.nextBlock [] [] eo
  bodies : ∀ m ∈ n.subs, m.body ≠ some e.graph.nextBlock
  variable' : eo.graph.ty iv = .index
  carried : carried.map eo.graph.ty = inits.map e.graph.ty

omit hpair in
theorem opensLoop
    (hst : Stands V n e.graph) (hs : Start W c pre post e) (hc : ∀ m ∈ n.subs, m.body ≠ some c)
    (l u s : ValueId) (inits : List ValueId) : ∃ iv carried,
      OpensLoop V n W e (loopOpened e c pre post l u s inits) c iv carried inits := by
  obtain ⟨iv, carried, hnext⟩ : ∃ iv carried, e.graph.nextValues (inits.length + 1) =
      iv :: carried :=
    exists_cons_of_length_eq_add_one
      (show (e.graph.nextValues (inits.length + 1)).length =
        inits.length + 1 by simp [Graph.nextValues])
  have hargTys : (Ty.index :: inits.map e.graph.ty).length = inits.length + 1 := by simp
  have hgrows : Extends e.graph (loopOpened e c pre post l u s inits).graph (some c) :=
    extends_opened
  have htys : (e.graph.nextValues (Ty.index :: inits.map e.graph.ty).length).map
      (loopOpened e c pre post l u s inits).graph.ty = .index :: inits.map e.graph.ty := tys_opened
  have hstart : Start (e.graph.nextValues (Ty.index :: inits.map e.graph.ty).length ++ W)
    e.graph.nextBlock
      [] [] (loopOpened e c pre post l u s inits) := start_opened hs
  rw [hargTys, hnext] at htys hstart
  obtain ⟨hvar, hcarried⟩ := List.cons.inj htys
  refine ⟨iv, carried, hs.visible, hnext, hgrows,
    hst.grow hgrows (sane_opened hs) fun m hm b hb heq => hc m hm (hb.trans heq), hstart,
    fun m hm hb => ?_, hvar, hcarried⟩
  exact Nat.lt_irrefl _ (hst.sane.body m.id _ ((hst.held m (by simpa using hm)).body.trans hb))

omit hpair in
theorem OpensLoop.fresh (h : OpensLoop V n W e eo c iv carried inits) :
    ∀ v ∈ iv :: carried, e.graph.values.size ≤ v.idx := fun _ hv =>
  ((Graph.mem_nextValues _).1 (h.next ▸ hv)).1

omit hpair in
theorem OpensLoop.nodup (h : OpensLoop V n W e eo c iv carried inits) : (iv :: carried).Nodup :=
  h.next ▸ Graph.nextValues_nodup _ _

/-! ## 2. The new inner loop -/

include hsplit

/-- The new inner loop is emitted with the copies that move into it. -/
theorem innerLoop_emits (hst : Stands V n e.graph) (hs : Start W c pre post e)
    (hc : ∀ m ∈ n.subs, m.body ≠ some c) {m : Mapping}
    (hsees : Sees (outs hoisted ++ p.innerIv :: V) W m e.graph) (hds : ∀ d ∈ ds, d ∈ W)
    (hdtys : ds.map e.graph.ty = p.inits.map e.graph.ty)
    (hbounds : ∀ v ∈ [l, u, s], e.graph.ty v = .index) (hW : ∀ v ∈ [l, u, s], v ∈ W) :
    Emits W c pre post e (forLoop l u s ds
      (innerBody ⟨n.id, p.inner.id, sunk.map Node.id, hoisted.map Node.id⟩ m)) fun r _ ns =>
        ∃ iv' ds' eo e₂ ks m₀, OpensLoop V n W e eo c iv' ds' ds ∧
          (m.insert p.outerIv iv').insertAll p.innerCarried ds' = .ok m₀ ∧
          Copied (sunk ++ p.body) ks m₀ r.2 eo e₂ (some e.graph.nextBlock) ∧ r.1 = e.graph.nextOp ∧
          ns = [loopNode e l u s ds (ks ++ [yieldNode e₂.graph (p.yields.map r.2.lookup)])] := by
  obtain ⟨iv', ds', ho⟩ := opensLoop hst hs hc l u s ds
  obtain ⟨-, -, -, -, -, -, hinits⟩ := outer_operands hpair hst
  have hinitTys : p.inits.map (loopOpened e c pre post l u s ds).graph.ty =
      p.inits.map e.graph.ty :=
    map_congr_left fun v hv => ho.grows.ty v (hst.visible v (hinits v hv))
  have hbody := innerBody_emits hpair hsplit ho.stands ho.start ho.bodies
    ((hsees.grow hs.visible ho.grows).mono (List.Subset.refl _)
      (fun v hv => by simp [hv] : W ⊆ _)) (by simp) ho.variable' (fun d hd => by simp [hd])
    (ho.carried.trans (hdtys.trans hinitTys.symm))
  refine (forLoop_emits _ (fun r e₂ ks => r.1 = p.yields.map r.2.lookup ∧ ∃ m₀,
      (m.insert p.outerIv iv').insertAll p.innerCarried ds' = .ok m₀ ∧
      Copied (sunk ++ p.body) ks m₀ r.2 (loopOpened e c pre post l u s ds) e₂
        (some e.graph.nextBlock))
    hs hbounds ?_ ho.next (hbody.mono ?_)).mono ?_
  · intro v hv
    rcases mem_append.1 (show v ∈ [l, u, s] ++ ds from hv) with hv | hv
    · exact hW v hv
    · exact hds v hv
  · rintro r e₂ ks - ⟨hr, htys, hmem, hns, hcopied⟩
    exact ⟨by rw [htys, hinitTys, hdtys], hmem, hns, hr, hcopied⟩
  · rintro ⟨j, m'⟩ e' ns - ⟨ys, e₂, ks, ⟨hys, m₀, hm₀, hcopied⟩, hid, rfl⟩
    obtain rfl : ys = p.yields.map m'.lookup := hys
    exact ⟨iv', ds', _, e₂, ks, m₀, ho, hm₀, hcopied, hid, rfl⟩

/-! ## 3. The new outer loop -/

omit hpair hsplit in
/-- The stages in which the body of the new outer loop is built: what is hoisted has been copied in
`first`, the inner loop is open in `opened`, and the rest has been copied into it in `last`, with
the mappings at these times. -/
structure SwapStages where
  hoisted' : List Node
  moved' : List Node
  inner' : Node
  first : Editor
  opened : Editor
  last : Editor
  half : Mapping
  start : Mapping
  whole : Mapping
  iv' : ValueId
  carried' : List ValueId

omit hpair hsplit in
/-- The body of the new outer loop has been built in these stages, from an editor in which the loop
is open with the variable `iv` and the carried values `ds`. -/
structure Staged (V : List ValueId) (n : Node) (p : PairParts) (sunk hoisted : List Node)
    (e : Editor) (iv : ValueId) (ds : List ValueId) (q : SwapStages) : Prop where
  hoisted : ∃ b, Copied hoisted q.hoisted' (Mapping.empty.insert p.innerIv iv) q.half e q.first b
  opened : ∃ W c, OpensLoop V n W q.first q.opened c q.iv' q.carried' ds
  given : (q.half.insert p.outerIv q.iv').insertAll p.innerCarried q.carried' = .ok q.start
  moved : Copied (sunk ++ p.body) q.moved' q.start q.whole q.opened q.last
    (some q.first.graph.nextBlock)
  inner : ∃ l u s, n.head.operands = l :: u :: s :: p.inits ∧ q.inner' = loopNode q.first l u s ds
    (q.moved' ++ [yieldNode q.last.graph (p.yields.map q.whole.lookup)])

theorem outerBody_emits
    (hst : Stands V n e.graph) (hs : Start (iv :: ds ++ V) c [] [] e)
    (hc : ∀ m ∈ n.subs, m.body ≠ some c) (hivty : e.graph.ty iv = .index)
    (hdtys : ds.map e.graph.ty = p.inits.map e.graph.ty) :
    Emits (iv :: ds ++ V) c [] [] e
      (outerBody ⟨n.id, p.inner.id, sunk.map Node.id, hoisted.map Node.id⟩ iv ds) fun r e' ns =>
        r.1.map e'.graph.ty = p.inits.map e.graph.ty ∧ (∀ y ∈ r.1, y ∈ outs ns ++ (iv :: ds ++ V)) ∧
        (∀ k ∈ ns, k.head.kind.isTerminator = false) ∧ ∃ q, Staged V n p sunk hoisted e iv ds q ∧
          r = (q.inner'.head.results, q.inner'.id, q.whole) ∧ ns = q.hoisted' ++ [q.inner'] := by
  have hm := mem_subs_of_mem_nodes hpair.inner_mem
  have hmhere : Here e.graph p.inner := hst.held p.inner (by simpa using hm)
  have htyped := hpair.typed hst
  obtain ⟨l, u, s, hops, hbounds, hvisible, hinits⟩ := outer_operands hpair hst
  obtain ⟨hheld, hrules, hlt⟩ := hst.part fun k hk => hoisted_mem hpair hsplit hk
  obtain ⟨⟨-, hids⟩, -, hdefs⟩ := copied_nodup hpair hsplit hst
  have hinner : p.innerIv.idx < e.graph.values.size := hst.held.defs_lt hst.sane _
    (mem_defs.2 ⟨p.inner, by simpa using hm, by simp [own, hpair.innerArgs]⟩)
  have hsees : Sees (p.innerIv :: V) (iv :: ds ++ V) (Mapping.empty.insert p.innerIv iv) e.graph :=
    ((sees_empty hst.visible).mono (List.Subset.refl _) (by simp)).insert hinner (by simp)
      (hivty.trans htyped.innerIv.symm)
  have hsrc := hsees.source hs.visible hst.sane hheld hlt
    (hsplit.scopedHoisted.mono (subset_cons_self _ _)) hdefs
    (fun v hv => apart_hoisted hpair hsplit hv) hids
  refine Emits.read (graph_ok.2 ⟨rfl, rfl⟩) ?_
  refine Emits.ask (hmhere.inductionVar_eq hpair.innerArgs) ?_
  refine Emits.bind hs (cloneAll_emits hs hsrc hrules
    (fun k hk => hc k (hoisted_mem hpair hsplit hk)) hsees.mem)
      fun m₁ e₁ hoisted' hemitted hcopied => ?_
  refine Emits.ask (hst.here.bounds_eq hops) ?_
  have hst₁ := hst.grow hemitted.grows hcopied.sane fun k hk b hb heq => hc k hk (hb.trans heq)
  have hsees₁ :=
    hsees.copied hs.visible hcopied (fun v hv => hheld.defs_lt hst.sane _ (outs_subset_defs _ hv))
    (fun v hv => apart_hoisted hpair hsplit hv)
  have hty₁ : ∀ v ∈ iv :: ds ++ V, e₁.graph.ty v = e.graph.ty v := fun v hv => hemitted.ty hs hv
  have hdtys₁ : ds.map e₁.graph.ty = ds.map e.graph.ty :=
    map_congr_left fun v hv => hty₁ v (by simp [hv])
  have hinits₁ : p.inits.map e₁.graph.ty = p.inits.map e.graph.ty :=
    map_congr_left fun v hv => hty₁ v (by simp [hinits v hv])
  refine Emits.bind hemitted.next (innerLoop_emits hpair hsplit hst₁ hemitted.next hc hsees₁
    (l := l) (u := u) (s := s) (fun d (hd : d ∈ ds) => by simp [hd])
    (by rw [hdtys₁, hdtys, hinits₁])
    (fun v hv => (hty₁ v (by simp [hvisible v hv])).trans (hbounds v hv))
    fun v hv => by simp [hvisible v hv]) ?_
  rintro ⟨j, m₂⟩ e₂ ns hemitted₂ ⟨iv', ds', eo, e₃, ks, m₀, ho, hm₀, hcopied', rfl, rfl⟩
  have hnode := hemitted₂.held.here mem_cons_self
  refine Emits.read (op_ok.2 ⟨rfl, rfl⟩) (Emits.pure hemitted₂.next ?_)
  have hres : (e₂.graph.op e₁.graph.nextOp).results = _ := hnode.results
  rw [hres]
  refine ⟨?_, fun y hy => ?_, fun k hk => ?_, ⟨hoisted', ks, _, e₁, eo, e₃, m₁, m₀, m₂, iv', ds'⟩,
    ⟨⟨_, hcopied⟩, ⟨_, _, ho⟩, hm₀, hcopied', l, u, s, hops, rfl⟩, rfl, by rw [append_nil]; rfl⟩
  · rw [← hnode.tys]
    exact hdtys₁.trans hdtys
  · rw [append_nil, outs_append]
    simp only [outs, flatMap_cons, flatMap_nil, append_nil, mem_append]
    exact .inl (.inr hy)
  · simp only [append_nil, mem_append, mem_singleton] at hk
    rcases hk with hk | rfl
    · exact hcopied.maps.inner (fun k hk => hpair.priorInner k
        (hsplit.perm.mem_iff.1 (mem_append_right _ hk))) k hk
    · rfl

omit hpair hsplit in
/-- The loop `n'` has been built in these stages. -/
def Builds (V : List ValueId) (n : Node) (p : PairParts) (sunk hoisted : List Node) (q : SwapStages)
    (n' : Node) : Prop :=
  ∃ e eo c iv ds l u s g, OpensLoop V n V e eo c iv ds p.inits ∧
    Staged V n p sunk hoisted eo iv ds q ∧ p.inner.head.operands = l :: u :: s :: p.outerCarried ∧
    n' = loopNode e l u s p.inits (q.hoisted' ++ [q.inner'] ++ [yieldNode g q.inner'.head.results])

/-- The new outer loop is emitted with its body. -/
theorem outerLoop_emits (hst : Stands V n e.graph) (hs : Start V c pre post e)
    (hc : ∀ m ∈ n.subs, m.body ≠ some c)
    (hops : p.inner.head.operands = l :: u :: s :: p.outerCarried)
    (hbounds : ∀ v ∈ [l, u, s], e.graph.ty v = .index) (hvisible : ∀ v ∈ [l, u, s], v ∈ V) :
    Emits V c pre post e (forLoop l u s p.inits
      (outerBody ⟨n.id, p.inner.id, sunk.map Node.id, hoisted.map Node.id⟩)) fun r _ ns =>
        ∃ n' q, ns = [n'] ∧ r = (n'.id, q.inner'.id, q.whole) ∧
          n'.head.tys = p.inits.map e.graph.ty ∧ Builds V n p sunk hoisted q n' := by
  obtain ⟨-, -, -, -, -, -, hinits⟩ := outer_operands hpair hst
  obtain ⟨iv, ds, ho⟩ := opensLoop hst hs hc l u s p.inits
  have hinitTys : p.inits.map (loopOpened e c pre post l u s p.inits).graph.ty =
      p.inits.map e.graph.ty :=
    map_congr_left fun v hv => ho.grows.ty v (hst.visible v (hinits v hv))
  have hemits := outerBody_emits hpair hsplit ho.stands ho.start ho.bodies ho.variable'
    (ho.carried.trans hinitTys.symm)
  refine (forLoop_emits _ (fun r _ ks => ∃ q,
    Staged V n p sunk hoisted (loopOpened e c pre post l u s p.inits) iv ds q ∧
      r = (q.inner'.head.results, q.inner'.id, q.whole) ∧ ks = q.hoisted' ++ [q.inner'])
        hs hbounds ?_
    ho.next (hemits.mono ?_)).mono ?_
  · intro v hv
    rcases mem_append.1 (show v ∈ [l, u, s] ++ p.inits from hv) with hv | hv
    · exact hvisible v hv
    · exact hinits v hv
  · rintro r e' ks - ⟨htys, hmem, hks, hq⟩
    exact ⟨htys.trans hinitTys, hmem, hks, hq⟩
  · rintro ⟨j, i, m⟩ e' ns - ⟨ys, e₂, ks, ⟨q, hq, hr, rfl⟩, rfl, rfl⟩
    obtain ⟨rfl, hrest⟩ := Prod.mk.inj hr
    cases hrest
    exact ⟨_, q, rfl, rfl, rfl, e, _, c, iv, ds, l, u, s, e₂.graph, ho, hq, hops, rfl⟩

/-- **The loops are exchanged for new ones.** -/
theorem exchange_builds {f : FuncId} {b₀ : BlockId} {params : List ValueId} {T : List Node}
    (hv : Valid e.graph f b₀ params T) (hn : Place params T V n) : ∃ b pre rest n' q e₁ e₂,
      exchange ⟨n.id, p.inner.id, sunk.map Node.id, hoisted.map Node.id⟩ e =
        .ok (n'.id, q.inner'.id, q.whole) e₂ ∧
      Exchange f b₀ params T V n b pre rest [n'] n'.head.results
        { e with point := ⟨some b, some n.id⟩ }
        e₁ e₂ ∧ Builds V n p sunk hoisted q n' ∧ (Exact e.graph → Exact e₂.graph) := by
  obtain ⟨b, pre, rest, hparent, hops, hs⟩ := hv.start hn
  have hst : Stands V n e.graph := {
    sane := hv.sane
    held := hv.holds.held.single hn.mem
    lt := (hv.sane.parent b n.id (by rw [hops]; simp)).1
    rules := fun k hk => hv.rules k (subsAll_trans hn.mem hk)
    inScope := hn.scoped hv.inScope
    visible := hs.visible }
  have hmhere : Here e.graph p.inner := hst.held p.inner (by
    simpa using mem_subs_of_mem_nodes hpair.inner_mem)
  obtain ⟨l, u, s, hoperands, hbounds, hvisible⟩ := inner_operands hpair hst
  obtain ⟨⟨j, i, m⟩, e₁, ns, hrun, hemitted, n', q, rfl, hr, htys, hbuilds⟩ :=
    outerLoop_emits hpair hsplit (e := { e with point := ⟨some b, some n.id⟩ }) hst hs
      (fun k hk => hv.body_ne hn.mem (by rw [hops]; simp) hk) hoperands hbounds hvisible
  obtain ⟨rfl, hrest⟩ := Prod.mk.inj hr
  cases hrest
  have hnode := hemitted.held.here mem_cons_self
  have hkind : n'.head.kind = .forLoop := by
    obtain ⟨_, _, _, _, _, _, _, _, _, _, _, _, rfl⟩ := hbuilds
    rfl
  obtain ⟨e₂, hreplace, hx⟩ :=
    Exchange.of_emitted n'.head.results (e := { e with point := ⟨some b, some n.id⟩ })
    hv hn (by rw [hpair.outerKind]; rfl) hs hemitted (by simp [hkind, Kind.isTerminator])
    (fun v hv => mem_append_left _ (by simpa [outs] using hv)) (by
      rw [← hnode.tys, htys, ← (hst.rules n (by rw [subs_eq]; simp)).loopInits hpair.outerKind,
        hpair.outerInits]) rfl
  refine ⟨b, pre, rest, n', q, e₁, e₂, ?_, hx, hbuilds, fun hexact => ?_⟩
  · unfold exchange
    have hpoint : pointBefore n.id e = .ok ⟨some b, some n.id⟩ e := by
      rw [← hparent]
      rfl
    refine state_bind_ok _ hpoint ?_
    refine state_bind_ok () rfl ?_
    refine state_bind_ok e.graph (graph_ok.2 ⟨rfl, rfl⟩) ?_
    refine state_bind_ok ⟨l, u, s⟩ (lift_ok.2 ⟨hmhere.bounds_eq hoperands, rfl⟩) ?_
    refine state_bind_ok p.inits (lift_ok.2 ⟨?_, rfl⟩) ?_
    · obtain ⟨_, _, _, houter, -⟩ := outer_operands hpair hst
      exact hst.here.inits_eq houter
    refine state_bind_ok _ hrun ?_
    refine state_bind_ok _ (op_ok.2 ⟨rfl, rfl⟩) ?_
    refine state_bind_ok () ?_ rfl
    rw [hnode.results]
    exact hreplace
  · have hresults : ∀ v ∈ n'.head.results, v.idx < e₁.graph.values.size := fun v hv =>
      hemitted.names_lt (mem_subsAll_of_mem mem_cons_self) (by simp [names, hv])
    exact ((replaceOp_leaves n.id (hemitted.booked hs hexact).kept hresults e₁ rfl).1 _ _
      hreplace).exact

/-! ## 4. One carried value -/

omit hpair in
/-- The names of the copies. -/
theorem Staged.renames {q : SwapStages} (hpair : Threads V n p)
    (ho : OpensLoop V n V e eo c iv ds p.inits) (h : Staged V n p sunk hoisted eo iv ds q) :
    Renames V p hoisted q.hoisted' iv ds q.iv' q.carried' q.whole.lookup := by
  obtain ⟨b, hhoisted⟩ := h.hoisted
  obtain ⟨W, c', hopened⟩ := h.opened
  have hnotV : ∀ v ∈ V, v ∉ iv :: ds := fun v hv hmem =>
    absurd (ho.visible v hv) (Nat.not_lt.2 (ho.fresh v hmem))
  have hlt := ho.start.visible
  exact renames_of_copied hpair hsplit hhoisted h.given h.moved
    (fun v hv => ⟨hlt v (by simp [hv]), fun heq => hnotV v hv (by simp [heq]),
      fun hmem => hnotV v hv (mem_cons_of_mem _ hmem)⟩)
    (nodup_cons.1 ho.nodup).1 (hlt iv (by simp)) (fun d hd => hlt d (by simp [hd])) hopened.fresh
    hopened.nodup (fun v hv => hopened.start.visible v (mem_append_left _ hv))
      hopened.grows.valuesLe

end Loops

theorem loopNode_args (e : Editor) (l u s : ValueId) (inits : List ValueId) (ns : List Node) :
    (loopNode e l u s inits ns).args = e.graph.nextValues (inits.length + 1) := by
  simp [regionNode]

/-- Loops that carry one value are exchanged for loops made of copies. -/
theorem Builds.swapped {V : List ValueId} {n n' : Node} {p : NestParts} {sunk hoisted : List Node}
    {q : SwapStages} (hpair : LoopPair V n p) (hsplit : Splits V p.pair sunk hoisted)
    (h : Builds V n p.pair sunk hoisted q n') : ∃ q', Swapped V n p q' q.whole.lookup n' := by
  obtain ⟨e, eo, c, iv, ds, l, u, s, g, ho, hst, hops, rfl⟩ := h
  have hren := hst.renames hsplit hpair.threads ho
  obtain ⟨W, c', hopened⟩ := hst.opened
  obtain ⟨l', u', s', hops', hinner⟩ := hst.inner
  obtain ⟨sunk', body', hmoved, hsunk, hbody⟩ := mapsAll_append.1 hst.moved.maps
  -- one value is carried
  obtain ⟨d, rfl⟩ : ∃ d, ds = [d] := by
    have hlen := congrArg List.length ho.next
    exact length_eq_one_iff.1 (Nat.succ.inj hlen).symm
  have hsub : p.names ⊆ p.pair.names := fun v hv => by
    simp only [NestParts.names, PairParts.names, NestParts.pair, mem_cons, mem_append] at hv ⊢
    tauto
  have hsub' : p.names ++ V ⊆ p.pair.names ++ V :=
    append_subset.2 ⟨fun v hv => mem_append_left _ (hsub hv), subset_append_right _ _⟩
  have hargs' : q.inner'.args = q.iv' :: q.carried' := by
    rw [hinner, loopNode_args]
    exact hopened.next
  refine ⟨⟨sunk, hoisted, sunk', q.hoisted', body', q.inner', d⟩, ?_⟩
  exact {
    split := hsplit.perm
    scopedHoisted := hsplit.scopedHoisted
    scopedSunk := hsplit.scopedSunk
    innerKind := by rw [hinner]; rfl
    innerBounds := by rw [hinner, hops']; rfl
    innerInits := by rw [hinner]; rfl
    innerArgs := by rw [hargs', ← hren.outerIv, ← hren.innerCarried]; rfl
    innerResults := by rw [hinner]; rfl
    innerBody := ⟨_, by rw [hinner, hmoved]; rfl, rfl, rfl⟩
    hoistedMaps := hren.maps
    sunkMaps := hsunk
    bodyMaps := hbody
    fixed := hren.fixed
    separates := hren.separates.mono hsub hsub'
    carriedNew := fun v hv heq => hren.avoids v (hsub' hv) (by simp [heq])
    outerKind := rfl
    outerBounds := (congrArg (List.take 3) hops).symm
    outerInits := rfl
    outerArgs := ho.next.trans (congrArg (fun v => [v, d]) hren.innerIv.symm)
    outerResults := rfl
    outerBody := ⟨_, append_assoc .., rfl, rfl⟩ }

end ConvNest.Conv
