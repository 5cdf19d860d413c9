/-
# Loops that carry one tensor

If two loops for which there is a plan carry one value, they are a `LoopPair`, with the accumulation
of the inner loop (`PlansSwap.single`), and a `Nest` if they read the carried tensor only through
the slice that they accumulate into (`nest_of_reads`).
-/
import ConvNest.Proofs.SwapMeaning

namespace ConvNest

open Program Node List

namespace Conv

/-! ## 1. The accumulation -/

/-- An operation that accumulates into a carried value inserts a slice into it. -/
theorem accumulations_mem {g : Graph} {i acc : OpId} {k : Nat} {carried : List ValueId}
    {found : List (OpId × Nat)} (hcarried : g.carried i = .ok carried)
    (h : accumulations g i = .ok found) (hmem : (acc, k) ∈ found) :
    acc ∈ g.bodyOps i ∧ g.kind acc = .insertSlice ∧
      ∃ v, carried[k]? = some v ∧ (g.op acc).operands[1]? = some v := by
  obtain ⟨vs, hvs, h⟩ := except_bind_eq_ok.1 h
  cases hvs.symm.trans hcarried
  obtain ⟨ls, hls, h⟩ := except_bind_eq_ok.1 h
  obtain rfl := except_pure_eq_ok.1 h
  obtain ⟨l, hl, hmem⟩ := mem_flatten.1 hmem
  obtain ⟨j, hj, hfound⟩ := exists_of_forall₂_mem (except_mapM_eq_ok.1 hls) hl
  obtain ⟨ks, hks, hret⟩ := except_bind_eq_ok.1 hfound
  obtain rfl := except_pure_eq_ok.1 hret
  obtain ⟨k', hk', heq⟩ := mem_map.1 hmem
  cases heq
  unfold accumulatesInto at hks
  split at hks
  · cases hks
    cases hk'
  · next hkind =>
    rw [not_or, Decidable.not_not] at hkind
    obtain ⟨v, hv, hret⟩ := except_bind_eq_ok.1 hks
    obtain rfl := except_pure_eq_ok.1 hret
    obtain ⟨⟨u, k⟩, hu, hsome⟩ := mem_filterMap.1 hk'
    rw [mk_mem_zipIdx_iff_getElem?] at hu
    split at hsome
    · next huv =>
      cases hsome
      exact ⟨hj, hkind.1, u, hu, (itemAt_ok.1 hv).trans (congrArg some huv.symm)⟩
    · cases hsome

/-- The body of the inner loop reads the carried tensor only to extract the slice into which it
accumulates: every operand that is the carried tensor is the destination of the accumulation, or the
source of an extraction with the same offsets and sizes. -/
def ReadsOwnSlice (g : Graph) (inner acc : OpId) (carried : ValueId) : Prop :=
  ∀ j ∈ (g.bodyOps inner).flatMap g.subtree, ∀ k, (g.op j).operands[k]? = some carried →
    (j = acc ∧ k = 1) ∨
      (g.kind j = .extractSlice ∧ k = 0 ∧ g.offsetsAndSizes j = g.offsetsAndSizes acc)

/-! ## 2. The loops -/

section Loops

variable {g : Graph} {f : FuncId} {b₀ : BlockId} {params V : List ValueId} {T : List Node}
  {n : Node} {inner : OpId} {plan : SwapPlan}

/-- The body of the inner loop around its accumulation. -/
structure AccumulatesAt (g : Graph) (m : Node) (c : ValueId) (before : List Node) (a : Node)
    (after : List Node) (z : Node) (x : ValueId) : Prop where
  nodes : m.nodes = before ++ a :: after ++ [z]
  found : accumulations g m.id = .ok [(a.id, 0)]
  inner : ∀ k ∈ before ++ a :: after, k.head.kind.isTerminator = false
  kind : a.head.kind = .insertSlice
  result : a.head.results[0]? = some x
  dest : a.head.operands[1]? = some c
  last : z.head.kind.isTerminator = true ∧ z.head.operands = [x]

theorem PlansSwap.accumulation (hp : PlansSwap g n.id inner plan) {m : Node} (hid : m.id = inner)
    (hm : Held g [m]) (hrules : Rules g m) {iv c r : ValueId} (hargs : m.args = [iv, c])
    (hresults : m.head.results = [r]) :
    ∃ before a after z x, AccumulatesAt g m c before a after z x := by
  subst hid
  have hhere := hm.here mem_cons_self
  have hkind : m.head.kind = .forLoop := hhere.kind.symm.trans hp.innerLoop.2.1
  have hin {k : Node} (hk : k ∈ m.nodes) : Here g k := (hm.child hk).here mem_cons_self
  obtain ⟨body, z, hnodes, hz, hbody⟩ := hrules.loopEnd hkind
  obtain ⟨acc, k, ys, res, hacc, hys, hres, haccres, -⟩ := hp.accumulates
  have hzmem : z ∈ m.nodes := by simp [hnodes]
  have hzterm : z.head.kind.isTerminator = true := by rw [hz]; rfl
  cases ((hhere.yielded_eq (hin hzmem) hnodes hzterm).symm.trans hys)
  -- one value is yielded, so the accumulation is of the only carried one
  have hzlen : z.head.operands.length = 1 := by
    rw [hrules.counts.yields (by simp [structured, hkind]) z hzmem hzterm, hresults]
    rfl
  obtain ⟨x, hx⟩ := length_eq_one_iff.1 hzlen
  obtain ⟨rfl, rfl⟩ : k = 0 ∧ x = res := by
    rw [hx, getElem?_eq_some_iff] at hres
    obtain ⟨hk, hres⟩ := hres
    obtain rfl : k = 0 := by simpa using hk
    exact ⟨rfl, hres⟩
  obtain ⟨haccmem, hacckind, v, hv, haccdest⟩ :=
    accumulations_mem (hhere.carried_eq hargs) hacc mem_cons_self
  obtain rfl : c = v := by simpa using hv
  rw [hhere.bodyOps_eq] at haccmem
  obtain ⟨a, ha, rfl⟩ := mem_map.1 haccmem
  rw [(hin ha).kind] at hacckind
  have habody : a ∈ body := by
    rw [hnodes, mem_append, mem_singleton] at ha
    refine ha.resolve_right ?_
    rintro rfl
    simp [hacckind] at hz
  obtain ⟨before, after, rfl⟩ := append_of_mem habody
  exact ⟨before, a, after, z, x, hnodes, hacc, hbody, hacckind, (hin ha).results ▸ haccres,
    (hin ha).operands ▸ haccdest, hzterm, hx⟩

/-- **Loops that can be exchanged.** -/
theorem PlansSwap.single (hp : PlansSwap g n.id inner plan) (hv : Valid g f b₀ params T)
    (hn : Place params T V n) (hone : g.carriedCount n.id = 1) :
    ∃ p, LoopPair V n p ∧ p.inner.id = inner ∧ accumulations g inner = .ok [(p.acc.id, 0)] := by
  obtain ⟨P, hP, hid⟩ := hp.pair hv hn
  have hheld := hv.holds.held.single hn.mem
  have hmheld := hheld.child hP.inner_mem
  have hfour {m : Node} (hm : Here g m)
      (hc : g.carriedCount m.id = 1) : m.head.operands.length = 4 := by
    rw [Graph.carriedCount, hm.operands] at hc
    omega
  have hmrules := hv.rules P.inner (nodes_mem_subsAll hn.mem hP.inner_mem)
  obtain ⟨l, u, s, iv, c, init, r, hops, hargs, hresults⟩ :=
    (hv.rules n hn.mem).single hP.outerKind (hfour (hheld.here mem_cons_self) hone)
  obtain ⟨l', u', s', iv', c', init', r', hops', hargs', hresults'⟩ :=
    hmrules.single hP.innerKind (hfour (hmheld.here mem_cons_self) (hid ▸ hp.counts.trans hone))
  obtain ⟨before, a, after, z, x, hacc⟩ := hp.accumulation hid hmheld hmrules hargs' hresults'
  obtain ⟨-, hcarried⟩ := List.cons.inj (hP.outerArgs.symm.trans hargs)
  refine ⟨⟨P.prior, P.inner, before, a, after, iv, c, iv', c', init, x⟩, ?_, hid, hid ▸ hacc.found⟩
  exact {
    inScope := hP.inScope
    apart := hP.apart
    outerKind := hP.outerKind
    outerArgs := hargs
    outerInits := by rw [hops]; rfl
    outerResults := by rw [hresults]; rfl
    outerBody := hP.outerBody
    priorInner := hP.priorInner
    innerKind := hP.innerKind
    innerArgs := hargs'
    innerBounds := hP.innerBounds
    innerInits := hP.innerInits.trans hcarried
    innerResults := by rw [hresults']; rfl
    innerBody := ⟨z, hacc.nodes, hacc.last⟩
    bodyInner := hacc.inner
    passes := fun m hm => hP.passes m hm c (by simp [hcarried])
    accKind := hacc.kind
    accResult := hacc.result
    accDest := hacc.dest }

/-- The operations of a body with those nested in them. -/
theorem mem_flatMap_subtree (hg : Sane g) (hheld : Held g [n]) {k : Node}
    (hk : k ∈ subsAll n.nodes) :
    k.id ∈ (g.bodyOps n.id).flatMap g.subtree := by
  have hhere := hheld.here mem_cons_self
  obtain ⟨m, hm, hkm⟩ := mem_subsAll.1 hk
  obtain ⟨b, hb⟩ := hhere.body_of_nodes (ne_nil_of_mem hm)
  have hlt : m.id.idx < g.ops.size :=
    (hg.parent b m.id (by rw [hhere.bodyOps b hb]; exact mem_map_of_mem hm)).1
  have hmheld := hheld.child hm
  rw [hhere.bodyOps_eq, mem_flatMap]
  refine ⟨m.id, mem_map_of_mem hm, ?_⟩
  rw [hmheld.subtree hg hlt]
  exact mem_map_of_mem (by simpa using hkm)

/-- **Loops that read the carried tensor only through the slice that they accumulate into.** -/
theorem nest_of_reads (hg : Sane g) (hheld : Held g [n]) {p : NestParts} (hpair : LoopPair V n p)
    (hreads : ReadsOwnSlice g p.inner.id p.acc.id p.innerCarried) : Nest V n p := by
  obtain ⟨y, hnodes, -, -⟩ := hpair.outerBody
  obtain ⟨z, hinner, -, -⟩ := hpair.innerBody
  have hm : p.inner ∈ n.nodes := by simp [hnodes]
  have hmheld := hheld.child hm
  have hread {m : Node} (hm : m ∈ subsAll p.inner.nodes) {k : Nat}
      (hk : m.head.operands[k]? = some p.innerCarried) := by
    have hmhere : Here g m := hmheld.inner (mem_subsAll_of_mem mem_cons_self) m hm
    exact hreads m.id (mem_flatMap_subtree hg hmheld hm) k (by rw [hmhere.operands]; exact hk)
  have hin {m : Node} (hm : m ∈ subsAll (p.before ++ p.after)) : m ∈ subsAll p.inner.nodes := by
    rw [hinner, NestParts.body]
    simp only [subsAll_append, subsAll_cons, mem_append] at hm ⊢
    tauto
  have hacc : p.acc ∈ subsAll p.inner.nodes := by
    rw [hinner, NestParts.body]
    exact mem_subsAll_of_mem (by simp)
  have hne {m : Node} (hm : m ∈ subsAll (p.before ++ p.after)) : m.id ≠ p.acc.id := by
    have hids := hmheld.ids_nodup hg
    rw [ids_cons, hinner, NestParts.body, ids_append, ids_append, ids_cons] at hids
    have hmem : m.id ∈ ids p.before ++ ids p.after := by
      rw [← ids_append]
      exact mem_map_of_mem hm
    grind
  -- a node that is not the accumulation extracts the slice, with its first operand
  have hextract {m : Node} (hm : m ∈ subsAll (p.before ++ p.after)) {k : Nat}
      (hk : m.head.operands[k]? = some p.innerCarried) : m.head.kind = .extractSlice ∧ k = 0 ∧
        m.head.offsetsAndSizes = p.acc.head.offsetsAndSizes := by
    have hmhere : Here g m := hmheld.inner (mem_subsAll_of_mem mem_cons_self) m (hin hm)
    have hahere : Here g p.acc := hmheld.inner (mem_subsAll_of_mem mem_cons_self) p.acc hacc
    obtain ⟨hkind, hzero, hsame⟩ := (hread (hin hm) hk).resolve_left fun h => hne hm h.1
    refine ⟨hmhere.kind.symm.trans hkind, hzero, ?_⟩
    rw [← toOption_offsetsAndSizes hmhere, hsame, toOption_offsetsAndSizes hahere]
  have hdest {k : Nat} (hk : p.acc.head.operands[k]? = some p.innerCarried) : k = 1 := by
    have hahere : Here g p.acc := hmheld.inner (mem_subsAll_of_mem mem_cons_self) p.acc hacc
    rcases hread hacc hk with h | h
    · exact h.2
    · rw [hahere.kind, hpair.accKind] at h
      cases h.1
  refine ⟨hpair, ⟨fun h => ?_, fun h => ?_⟩, fun m hm hmem => ?_, fun m hm hmem => ?_⟩
  · cases hdest h
  · obtain ⟨k, hk⟩ := mem_iff_getElem?.1 h
    rw [getElem?_drop] at hk
    have := hdest hk
    omega
  · obtain ⟨k, hk⟩ := mem_iff_getElem?.1 hmem
    obtain ⟨hkind, rfl, -⟩ := hextract hm hk
    refine ⟨hkind, hk, fun h => ?_⟩
    obtain ⟨j, hj⟩ := mem_iff_getElem?.1 h
    rw [getElem?_drop] at hj
    have := (hextract hm hj).2.1
    omega
  · obtain ⟨k, hk⟩ := mem_iff_getElem?.1 hmem
    exact (hextract hm hk).2.2

end Loops

end Conv

end ConvNest
