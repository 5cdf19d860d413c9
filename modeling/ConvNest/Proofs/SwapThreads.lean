/-
# Two loops that thread the same values

Two loops, one directly inside the other, thread values if the outer loop does nothing with what it
carries but pass it through the inner one (`Threads`).  This is what a plan to exchange them has
checked (`PlansSwap.threads`).  The operations before the inner loop are split into those that
depend on the outer variable and the others (`PlansSwap.splits`).
-/
import ConvNest.Proofs.Copy
import ConvNest.Proofs.SwapNest
import ConvNest.Proofs.SwapPlan

namespace ConvNest

open Program Node List

namespace KeySet

variable {α : Type} [BEq α] [LawfulBEq α] {s : KeySet α} {k : α} {ks : List α}

theorem contains_insert {l : α} : (s.insert l).contains k = true ↔ s.contains k = true ∨ k = l := by
  unfold insert
  split
  · next h =>
    refine ⟨.inl, fun hk => hk.elim id ?_⟩
    rintro rfl
    exact h
  · simp [contains]

theorem contains_insertMany : (s.insertMany ks).contains k = true ↔ s.contains k = true ∨
    k ∈ ks := by
  induction ks generalizing s with
  | nil => simp [insertMany]
  | cons l ks ih =>
    have step : s.insertMany (l :: ks) = (s.insert l).insertMany ks := rfl
    rw [step, ih, contains_insert, mem_cons, or_assoc]

theorem contains_ofList : (ofList ks).contains k = true ↔ k ∈ ks := by
  rw [ofList, contains_insertMany]
  simp [empty, contains]

end KeySet

namespace Program

variable {ms ns : List Node} {v : ValueId}

theorem Node.mem_defs_perm (h : ms.Perm ns) :
    v ∈ defs ms ↔ v ∈ defs ns := by
  simp only [mem_defs, mem_subsAll, h.mem_iff]

theorem Node.mem_outs_perm (h : ms.Perm ns) :
    v ∈ outs ms ↔ v ∈ outs ns := by
  simp only [outs, mem_flatMap, h.mem_iff]

theorem Node.MapsAll.inner {ρ : ValueId → ValueId} {ns' : List Node} (h : MapsAll ρ ns ns')
    (hns : ∀ m ∈ ns, m.head.kind.isTerminator = false) :
    ∀ m ∈ ns', m.head.kind.isTerminator = false := fun m' hm' => by
  obtain ⟨m, hm, hmap⟩ := h.exists_of_mem hm'
  rw [hmap.like.kind]
  exact hns m hm

end Program

namespace Conv

/-! ## 1. What moves where -/

section Split

variable {g : Graph} {D : KeySet ValueId}

/-- An operation uses a value of a set just when a node of its tree does. -/
theorem usesAny_iff (hg : Sane g) {m : Node} (hm : Held g [m]) (hlt : m.id.idx < g.ops.size) :
    usesAny g D m.id = true ↔ ∃ k ∈ m.subs, ∃ v ∈ k.head.operands, D.contains v = true := by
  rw [usesAny, hm.subtree hg hlt, any_eq_true]
  simp only [ids, subsAll_cons, subsAll_nil, append_nil, mem_map, KeySet.containsAny,
    any_eq_true]
  constructor
  · rintro ⟨_, ⟨k, hk, rfl⟩, v, hv, hD⟩
    rw [(hm k (by simpa using hk)).operands] at hv
    exact ⟨k, hk, v, hv, hD⟩
  · rintro ⟨k, hk, v, hv, hD⟩
    refine ⟨k.id, ⟨k, hk, rfl⟩, v, ?_, hD⟩
    rw [(hm k (by simpa using hk)).operands]
    exact hv

/-- **What does not depend on the given values can be moved out of their scope, before the
rest.** -/
theorem splitDependent_nodes (hg : Sane g) {ms : List Node} (hms : Held g ms)
    (hlt : ∀ m ∈ ms, m.id.idx < g.ops.size) {V W : List ValueId} (hs : ScopedAll V ms)
    (hcover : ∀ v ∈ V, v ∈ W ∨ D.contains v = true) :
    ∃ sunk hoisted, splitDependent g D (ms.map Node.id) = (sunk.map Node.id, hoisted.map Node.id) ∧
      (sunk ++ hoisted).Perm ms ∧ ScopedAll W hoisted ∧ ScopedAll (outs hoisted ++ V) sunk := by
  induction ms generalizing D V W with
  | nil => exact ⟨[], [], rfl, .nil, by simp, by simp⟩
  | cons m ms ih =>
    obtain ⟨hm, hms⟩ := held_cons.1 hms
    have hlt' : ∀ k ∈ ms, k.id.idx < g.ops.size := fun k hk => hlt k (mem_cons_of_mem _ hk)
    have hresults : (g.op m.id).results = m.head.results := (hm.here mem_cons_self).results
    have huses := usesAny_iff (D := D) hg hm (hlt m mem_cons_self)
    rw [map_cons, splitDependent]
    by_cases hdep : usesAny g D m.id = true
    · obtain ⟨sunk, hoisted, heq, hperm, hhoisted, hsunk⟩ := ih hms hlt' (W := W)
        (D := D.insertMany (g.op m.id).results) hs.2 fun v hv => by
          rw [KeySet.contains_insertMany, hresults]
          rcases mem_append.1 hv with hv | hv
          · exact .inr (.inr hv)
          · exact (hcover v hv).imp_right .inl
      refine ⟨m :: sunk, hoisted, ?_, hperm.cons m, hhoisted, scopedAll_cons.2 ⟨?_, ?_⟩⟩
      · rw [if_pos hdep, heq]
        rfl
      · exact hs.1.mono (subset_append_right _ _)
      · exact hsunk.mono fun v hv => by
          simp only [mem_append] at hv ⊢
          tauto
    · obtain ⟨sunk, hoisted, heq, hperm, hhoisted, hsunk⟩ := ih hms hlt' (W := m.head.results ++ W)
        (D := D) hs.2 fun v hv => by
          rcases mem_append.1 hv with hv | hv
          · exact .inl (mem_append_left _ hv)
          · exact (hcover v hv).imp_left (mem_append_right _)
      refine ⟨sunk, m :: hoisted, ?_, (perm_middle).trans (hperm.cons m),
        scopedAll_cons.2 ⟨?_, hhoisted⟩, ?_⟩
      · rw [if_neg hdep, heq]
        rfl
      · refine hs.1.restrict fun k hk v hv hV => (hcover v hV).resolve_right fun hD => ?_
        exact hdep (huses.2 ⟨k, hk, v, hv, hD⟩)
      · exact hsunk.mono fun v hv => by
          simp only [outs, flatMap_cons, mem_append] at hv ⊢
          tauto

end Split

/-! ## 2. What a plan has checked -/

section Plans

variable {g : Graph} {f : FuncId} {b₀ : BlockId} {params V : List ValueId} {T : List Node}
  {n : Node} {inner : OpId} {plan : SwapPlan}

theorem definedIn_of_nodes (hg : Sane g) {n : Node} (hn : Held g [n])
    (howns : g.OwnsBody n.id) {v : ValueId} (hv : v ∈ n.args ++ outs n.nodes) :
    definedIn g n.id v = true := by
  have hhere := hn.here mem_cons_self
  rcases mem_append.1 hv with hv | hv
  · obtain ⟨c, hc⟩ := hhere.body_of_args (ne_nil_of_mem hv)
    have howner := (owner_of_mem_args hg (b := c) (by rw [hhere.bodyArgs c hc]; exact hv)).2
    have hparent := howns c (hhere.body.trans hc)
    simp [definedIn, howner, hparent]
  · obtain ⟨m, hm, hv⟩ := mem_flatMap.1 hv
    have hmhere := (hn.child hm).here mem_cons_self
    have howner := (owner_of_mem_results hg (i := m.id) (by rw [hmhere.results]; exact hv)).2
    obtain ⟨c, hc⟩ := hhere.body_of_nodes (ne_nil_of_mem hm)
    have hlt := (hg.parent c m.id (by rw [hhere.bodyOps c hc]; exact mem_map_of_mem hm)).1
    simp [definedIn, howner, isAncestor_of_parentOp hlt (hhere.parentOp_eq howns hm)]

section

variable {prior : List Node} {m y : Node} (hp : PlansSwap g n.id inner plan)

include hp

/-- The inner loop stands before the end of the outer one. -/
theorem PlansSwap.shape (hhere : Here g n) (hrules : Rules g n) :
    ∃ prior m y, n.nodes = prior ++ [m, y] ∧ m.id = inner ∧ y.head.kind = .loopYield ∧
      ∀ k ∈ prior, k.head.kind.isTerminator = false := by
  obtain ⟨ini, y, hnodes, hy, hini⟩ := hrules.loopEnd (hhere.kind.symm.trans hp.outerLoop.2.1)
  obtain ⟨hlen, hlast⟩ := hp.last
  rw [hhere.bodyOps_eq, hnodes] at hlen hlast
  rcases eq_nil_or_concat ini with rfl | ⟨prior, m, rfl⟩
  · simp at hlen
  · refine ⟨prior, m, y, by simp [hnodes], ?_, hy, fun k hk => hini k (by simp [hk])⟩
    simpa using hlast

/-- The bounds of the inner loop are visible before the outer one. -/
theorem PlansSwap.bounds_visible (hg : Sane g) (hheld : Held g [n]) (howns : g.OwnsBody n.id)
    (hs : n.Scoped V) (hnodes : n.nodes = prior ++ [m, y]) (hid : m.id = inner) :
    ∀ v ∈ m.head.operands.take 3, v ∈ V := by
  subst hid
  intro v hv
  obtain ⟨b, hb, hdef⟩ := hp.bounds
  have hmhere : Here g m := (hheld.child (by simp [hnodes])).here mem_cons_self
  obtain ⟨h0, h1, h2⟩ := bounds_ok hb
  rw [hmhere.operands] at h0 h1 h2
  have hbound : v ∈ [b.lower, b.upper, b.step] := by
    obtain ⟨k, hk⟩ := mem_iff_getElem?.1 hv
    rw [getElem?_take] at hk
    split at hk
    · next hlt =>
      match k, hlt with
      | 0, _ => simp [← Option.some.inj (h0.symm.trans hk)]
      | 1, _ => simp [← Option.some.inj (h1.symm.trans hk)]
      | 2, _ => simp [← Option.some.inj (h2.symm.trans hk)]
    · cases hk
  have hscoped := (scoped_iff.1 hs).2
  rw [hnodes, scopedAll_append] at hscoped
  have hvisible := (scoped_iff.1 (scopedAll_cons.1 hscoped.2).1).1 v (mem_of_mem_take hv)
  by_contra hV
  have hinside : v ∈ n.args ++ outs n.nodes := by
    rw [hnodes, outs_append]
    simp only [mem_append] at hvisible ⊢
    tauto
  have hfalse := hdef v hbound
  rw [definedIn_of_nodes hg hheld howns hinside] at hfalse
  cases hfalse

/-- What the outer loop carries is used by the inner loop itself only. -/
theorem PlansSwap.passes (hg : Sane g) (hheld : Held g [n]) (hnodes : n.nodes = prior ++ [m, y])
    (hid : m.id = inner) {iv : ValueId} {carried : List ValueId} (hargs : n.args = iv :: carried) :
    ∀ k ∈ subsAll prior ++ subsAll m.nodes, ∀ c ∈ carried, c ∉ k.head.operands := by
  subst hid
  intro k hk c hcarried hc
  obtain ⟨vs, hvs, -, huses⟩ := hp.threads
  cases (((hheld.here mem_cons_self).carried_eq hargs).symm.trans hvs)
  have hkid : k.id = m.id := by
    obtain ⟨j, hj⟩ := mem_iff_getElem?.1 hc
    have hkhere : Here g k := hheld k (by
      rw [subsAll_cons, subs_eq n, hnodes, subsAll_append, subsAll_cons, subs_eq m]
      simp only [mem_append] at hk ⊢
      simp only [mem_cons, mem_append]
      tauto)
    exact huses _ hcarried _ (hkhere.used j _ hj)
  have hids := hheld.ids_nodup hg
  rw [ids_cons, hnodes, ids_append, ids_cons] at hids
  rcases mem_append.1 hk with hk | hk
  · have hprior : k.id ∈ ids prior := mem_map_of_mem hk
    grind
  · have hinner : k.id ∈ ids m.nodes := mem_map_of_mem hk
    grind

end

/-- **Loops for which there is a plan thread what they carry.** -/
theorem PlansSwap.pair (hp : PlansSwap g n.id inner plan) (hv : Valid g f b₀ params T)
    (hn : Place params T V n) : ∃ p, Threads V n p ∧ p.inner.id = inner := by
  have hheld := hv.holds.held.single hn.mem
  have hhere := hheld.here mem_cons_self
  have hrules := hv.rules n hn.mem
  have hkind : n.head.kind = .forLoop := hhere.kind.symm.trans hp.outerLoop.2.1
  obtain ⟨l, u, s, inits, iv, carried, hops, hargs, -⟩ := loop_parts hrules hkind
  obtain ⟨prior, m, y, hnodes, hid, hy, hprior⟩ := hp.shape hhere hrules
  have hm : m ∈ n.nodes := by simp [hnodes]
  have hmheld := hheld.child hm
  have hmhere := hmheld.here mem_cons_self
  have hmrules := hv.rules m (nodes_mem_subsAll hn.mem hm)
  have hmkind : m.head.kind = .forLoop := hmhere.kind.symm.trans (hid ▸ hp.innerLoop.2.1)
  obtain ⟨l', u', s', inits', iv', carried', hops', hargs', -⟩ := loop_parts hmrules hmkind
  obtain ⟨body, z, hinner, hz, hbody⟩ := hmrules.loopEnd hmkind
  -- the carried values pass through the inner loop
  have hinits : inits' = carried := by
    obtain ⟨vs, hvs, his, -⟩ := hp.threads
    cases ((hhere.carried_eq hargs).symm.trans hvs)
    subst hid
    exact Except.ok.inj ((hmhere.inits_eq hops').symm.trans his)
  have hyield : y.head.operands = m.head.results := by
    have hyhere : Here g y := (hheld.child (by simp [hnodes])).here mem_cons_self
    have hyields := hp.yields
    have hlast : n.nodes = (prior ++ [m]) ++ [y] := by simp [hnodes]
    rw [hhere.yielded_eq hyhere hlast (by rw [hy]; rfl), ← hid, hmhere.results] at hyields
    exact Except.ok.inj hyields
  refine ⟨⟨prior, m, body, iv, carried, iv', carried', inits, z.head.operands⟩, ?_, hid⟩
  exact {
    inScope := hn.scoped hv.inScope
    apart := hn.apart hv.apart
    outerKind := hkind
    outerArgs := hargs
    outerInits := by rw [hops]; rfl
    outerBody := ⟨y, hnodes, by rw [hy]; rfl, hyield⟩
    priorInner := hprior
    innerKind := hmkind
    innerArgs := hargs'
    innerBounds := hp.bounds_visible hv.sane hheld (hv.holds.owns hv.sane hn.mem)
      (hn.scoped hv.inScope) hnodes hid
    innerInits := by rw [hops', ← hinits]; rfl
    innerBody := ⟨z, hinner, by rw [hz]; rfl, rfl⟩
    bodyInner := hbody
    passes := hp.passes hv.sane hheld hnodes hid hargs }

/-- How the operations before the inner loop are split: `hoisted` can be executed without the outer
variable, and `sunk` after them. -/
structure Splits (V : List ValueId) (p : PairParts) (sunk hoisted : List Node) : Prop where
  perm : (sunk ++ hoisted).Perm p.prior
  scopedHoisted : ScopedAll V hoisted
  scopedSunk : ScopedAll (outs hoisted ++ p.outerIv :: V) sunk

theorem PlansSwap.splits (hp : PlansSwap g n.id inner plan) (hg : Sane g) (hheld : Held g [n])
    {p : PairParts} (hpair : Threads V n p) : ∃ sunk hoisted, Splits V p sunk hoisted ∧
      plan = ⟨n.id, inner, sunk.map Node.id, hoisted.map Node.id⟩ := by
  have hhere := hheld.here mem_cons_self
  obtain ⟨y, hnodes, -, -⟩ := hpair.outerBody
  obtain ⟨iv, hiv, hplan⟩ := hp.plan
  cases ((hhere.inductionVar_eq hpair.outerArgs).symm.trans hiv)
  have htake : (g.bodyOps n.id).take ((g.bodyOps n.id).length - 2) = p.prior.map Node.id := by
    rw [hhere.bodyOps_eq, hnodes, map_append]
    simp
  rw [htake] at hplan
  have hprior : Held g p.prior := fun k hk => hheld k (by
    rw [subsAll_cons, subs_eq n, hnodes, subsAll_append]
    simp [hk])
  have hlt : ∀ k ∈ p.prior, k.id.idx < g.ops.size := fun k hk => by
    obtain ⟨b, hb⟩ := hhere.body_of_nodes (by simp [hnodes])
    refine (hg.parent b k.id ?_).1
    rw [hhere.bodyOps b hb, hnodes]
    exact mem_map_of_mem (mem_append_left _ hk)
  have hcover : ∀ v ∈ p.outerIv :: V, v ∈ V ∨ (KeySet.ofList [p.outerIv]).contains v = true := by
    intro v hv
    rw [KeySet.contains_ofList, mem_singleton]
    exact (mem_cons.1 hv).symm
  obtain ⟨sunk, hoisted, hsplit, hperm, hhoisted, hsunk⟩ :=
    splitDependent_nodes hg hprior hlt hpair.scopedPrior hcover
  rw [hsplit] at hplan
  exact ⟨sunk, hoisted, ⟨hperm, hhoisted, hsunk⟩, hplan⟩

end Plans

end Conv

end ConvNest
