/-
# Replacing an operation of a verified function

An operation of a verified function that is no terminator may be replaced by any values of the types
of its results that are visible just before it.  `Graph.Sees` says which values these are, by the
blocks around the operation, and `Replaced` what becomes of the function: it is verified, the
operation is erased with all those nested in it, and the other ones are as they were, but for their
operands.
-/
import ConvNest.Proofs.Isolation

namespace ConvNest.Program

open Node List

/-! ## 1. Values that an operation sees -/

/-- The value is visible just before an operation of a function: a block around the operation has it
as an argument, or an operation that stands earlier in such a block has it as a result. -/
inductive Graph.Sees (g : Graph) (f : FuncId) : OpId → ValueId → Prop
  | argument {i : OpId} {b : BlockId} {v : ValueId} (hb : (g.op i).parent = some b)
      (hv : v ∈ (g.block b).args) : Sees g f i v
  | earlier {i j : OpId} {b : BlockId} {pre post : List OpId} {v : ValueId}
      (hb : (g.op i).parent = some b) (hops : (g.block b).ops = pre ++ i :: post) (hj : j ∈ pre)
      (hv : v ∈ (g.op j).results) : Sees g f i v
  | outer {i j : OpId} {b : BlockId} {v : ValueId} (hb : (g.op i).parent = some b)
      (hbody : (g.func f).body ≠ some b) (hj : (g.block b).parentOp = some j) (h : Sees g f j v) :
      Sees g f i v

/-- The nodes before a node in its block, and what is visible there. -/
theorem Node.Place.block {W V : List ValueId} {ns : List Node} {m : Node} (h : Place W ns V m) :
    (∃ pre post, ns = pre ++ m :: post ∧ ∀ v ∈ outs pre ++ W, v ∈ V) ∨
      ∃ k U pre post, Place W ns U k ∧ k.nodes = pre ++ m :: post ∧
        ∀ v ∈ outs pre ++ (k.args ++ U), v ∈ V := by
  induction h with
  | here => exact .inl ⟨[], _, rfl, by simp [outs]⟩
  | @later W V n m ns _ ih =>
    rcases ih with ⟨pre, post, rfl, hV⟩ | ⟨k, U, pre, post, hk, hnodes, hV⟩
    · refine .inl ⟨n :: pre, post, rfl, fun v hv => hV v ?_⟩
      simp only [outs, flatMap_cons, mem_append] at hv ⊢
      tauto
    · exact .inr ⟨k, U, pre, post, .later hk, hnodes, hV⟩
  | @inside W V n m ns _ ih =>
    rcases ih with ⟨pre, post, hnodes, hV⟩ | ⟨k, U, pre, post, hk, hnodes, hV⟩
    · exact .inr ⟨n, W, pre, post, .here, hnodes, hV⟩
    · exact .inr ⟨k, U, pre, post, .inside hk, hnodes, hV⟩

section Seen

variable {g : Graph} {f : FuncId} {b₀ : BlockId} {params V : List ValueId} {T : List Node}
  {m : Node}

/-- Where a node stands: in the block `b`, after the nodes `pre`.  The block is the one of the
function or the body of another node. -/
structure Spot (g : Graph) (b₀ : BlockId) (params : List ValueId) (T : List Node) (V : List ValueId)
    (m : Node) (b : BlockId) (pre : List Node) (post : List OpId) : Prop where
  parent : (g.op m.id).parent = some b
  ops : (g.block b).ops = pre.map Node.id ++ m.id :: post
  here : ∀ l ∈ pre, Here g l
  visible : ∀ v ∈ outs pre ++ (g.block b).args, v ∈ V
  around : b = b₀ ∨ ∃ k U, Place params T U k ∧ (g.op k.id).body = some b ∧ ∀ v ∈ U, v ∈ V

theorem Valid.spot (hv : Valid g f b₀ params T) (h : Place params T V m) :
    ∃ b pre post, Spot g b₀ params T V m b pre post := by
  rcases h.block with ⟨pre, post, rfl, hV⟩ | ⟨k, U, pre, post, hk, hnodes, hV⟩
  · refine ⟨b₀, pre, post.map Node.id, hv.holds.placed m (by simp), by simp [hv.holds.ops],
      fun l hl => ?_, by rwa [hv.holds.args], .inl rfl⟩
    exact hv.holds.held l (mem_subsAll_of_mem (mem_append_left _ hl))
  · have hhere : Here g k := hv.holds.held k hk.mem
    have hmem : m ∈ k.nodes := by simp [hnodes]
    obtain ⟨b, hb, -⟩ := hhere.child_mem hmem
    refine ⟨b, pre, post.map Node.id, (hhere.placed m hmem).trans hb, ?_, fun l hl => ?_,
      fun v hv' => ?_, .inr ⟨k, U, hk, hhere.body.trans hb, fun v hv' => hV v (by simp [hv'])⟩⟩
    · rw [hhere.bodyOps b hb, hnodes]
      simp
    · exact hv.holds.held l (nodes_mem_subsAll hk.mem (by rw [hnodes]; exact mem_append_left _ hl))
    · rw [hhere.bodyArgs b hb] at hv'
      refine hV v ?_
      simp only [mem_append] at hv' ⊢
      tauto

/-- What an operation of a valid function sees is visible at its node. -/
theorem Valid.visible (hv : Valid g f b₀ params T) {i : OpId} {v : ValueId} (hsees : g.Sees f i v) :
    ∀ {m V}, Place params T V m → m.id = i → v ∈ V := by
  induction hsees with
  | argument hb hmem =>
    rintro m V h rfl
    obtain ⟨b, pre, post, hspot⟩ := hv.spot h
    cases hb.symm.trans hspot.parent
    exact hspot.visible _ (mem_append_right _ hmem)
  | @earlier _ _ c _ _ _ hb hops hj hmem =>
    rintro m V h rfl
    obtain ⟨b, pre, post, hspot⟩ := hv.spot h
    obtain rfl : c = b := Option.some.inj (hb.symm.trans hspot.parent)
    have hnodup := hv.sane.opsNodup c
    rw [hops, nodup_append, nodup_cons] at hnodup
    obtain ⟨rfl, -⟩ :=
      (append_cons_inj_of_notMem (fun hmem => hnodup.2.2 _ hmem _ mem_cons_self rfl)
      hnodup.2.1.1).1 (hops.symm.trans hspot.ops)
    obtain ⟨l, hl, rfl⟩ := mem_map.1 hj
    refine hspot.visible _ (mem_append_left _ (mem_flatMap.2 ⟨l, hl, ?_⟩))
    rwa [(hspot.here l hl).results] at hmem
  | outer hb hbody hj _ ih =>
    rintro m V h rfl
    obtain ⟨b, pre, post, hspot⟩ := hv.spot h
    cases hb.symm.trans hspot.parent
    rcases hspot.around with rfl | ⟨k, U, hk, hkbody, hU⟩
    · exact absurd hv.body hbody
    · exact hU _ (ih hk (Option.some.inj ((hv.holds.owns hv.sane hk.mem _ hkbody).symm.trans hj)))

end Seen

/-! ## 2. What is left -/

section Left

variable {i : OpId} {σ : ValueId → ValueId} {n : Node} {ns : List Node}

/-- The operations of trees in which one is replaced by nothing are the spared ones. -/
theorem ids_replacedAll : ids (replacedAll i [] σ ns) = (sparedAll i ns).map Node.id := by
  induction ns using forest with
  | nil => simp [sparedAll_nil, ids]
  | cons n ns body rest =>
    rw [replacedAll_cons, sparedAll_cons, map_append, ← rest]
    by_cases hid : n.id = i
    · simp [hid]
    · rw [if_neg hid, if_neg hid, singleton_append, ids_cons, replaced_id, replaced_nodes,
        spared_eq, body]
      simp

/-- The spared operations are those that are not nested in the one that is not. -/
theorem mem_spared_iff (hids : (ids ns).Nodup) (hn : n ∈ subsAll ns) {j : OpId} :
    j ∈ (sparedAll n.id ns).map Node.id ↔ j ∈ ids ns ∧ j ∉ ids [n] := by
  have hperm := perm_spared n.id ns
  constructor
  · intro hj
    obtain ⟨m, hm, rfl⟩ := mem_map.1 hj
    exact ⟨mem_map_of_mem (sparedAll_subset hm), spared_id_notMem hids hn hm⟩
  · rintro ⟨hj, hnot⟩
    obtain ⟨m, hm, rfl⟩ := mem_map.1 hj
    refine mem_map_of_mem ((mem_append.1 (hperm.mem_iff.1 hm)).resolve_right fun htop => hnot ?_)
    obtain ⟨l, hl, hml⟩ := mem_subsAll.1 htop
    have hln : l = n := eq_of_id hids
      (hperm.mem_iff.2 (mem_append_right _ (mem_subsAll_of_mem hl))) hn (topsAll_id l hl)
    exact mem_map_of_mem (by simpa using hln ▸ hml)

end Left

/-! ## 3. The function -/

/-- A valid function of a graph whose use lists are exact is verified. -/
theorem Valid.verify {g : Graph} {f : FuncId} {b : BlockId} {params : List ValueId} {ns : List Node}
    (hv : Valid g f b params ns) (hg : Exact g) : g.verify f = .ok () := by
  have hroot := hv.sane.rooted hv.holds
  refine verify_of_tree hv.body hv.holds hv.inScope hv.rules hv.ends ⟨fun n hn v hmem d hd => ?_,
    fun n _ r _ u hu => ⟨hg.live r u hu, hg.tidy.used r u hu⟩⟩
  obtain ⟨m, hm, rfl⟩ := mem_map.1
    (hroot.definer_mem (operands_visible hv.inScope n hn v hmem) hd)
  exact (hv.holds.held m hm).present

/-- What becomes of a verified function when values take the place of the results of an
operation. -/
structure Replaced (f : FuncId) (i : OpId) (values : List ValueId) (g g' : Graph) : Prop where
  verified : g'.verify f = .ok ()
  erased : ∀ j ∈ g.subtree i, (g'.op j).erased = true
  contents : ∀ j, g'.Contains f j ↔ g.Contains f j ∧ j ∉ g.subtree i
  kept : ∀ j, g'.Contains f j → g'.op j = { g.op j with
    operands := (g.op j).operands.map (moved ((g.op i).results.zip values)) }
  defined : ∀ j, g'.Contains f j → ∀ v ∈ (g'.op j).operands, ∀ d, g'.definingOp v = some d →
    (g'.op d).erased = false

section Replacements

variable {f : FuncId} {b₀ b : BlockId} {params V values : List ValueId} {T : List Node} {n : Node}
  {pre rest : List OpId} {e e₂ : Editor}

/-- An exchange for nothing, where the use lists stay exact. -/
theorem Exchange.replaced (x : Exchange f b₀ params T V n b pre rest [] values e e e₂)
    (hexact : Exact e₂.graph) : Replaced f n.id values e.graph e₂.graph := by
  have hv := x.valid
  have hsub : e.graph.subtree n.id = ids [n] := x.held.subtree x.start.sane x.id_lt
  have hcontents (j : OpId) : e₂.graph.Contains f j ↔ j ∈ ids T ∧ j ∉ ids [n] := by
    rw [hv.holds.contains_iff hv.body, ← mem_spared_iff x.idsNodup x.mem, ← ids_replacedAll]
    exact mem_map.symm
  refine ⟨hv.verify hexact, fun j hj => ?_, fun j => ?_, fun j hj => ?_, fun j hj v hmem d hd => ?_⟩
  · rw [hsub] at hj
    exact x.rewired.erased j hj (x.held.ids_lt x.start.sane (by simpa using x.id_lt) j hj)
  · rw [hcontents, x.before.holds.contains_iff x.before.body, hsub]
    exact and_congr_left' mem_map
  · obtain ⟨m, hm, rfl⟩ := mem_map.1 ((mem_spared_iff x.idsNodup x.mem).2 ((hcontents j).1 hj))
    rw [(x.held.here mem_cons_self).results]
    exact (x.op_spared hm).1
  · obtain ⟨m, hm, rfl⟩ := (hv.holds.contains_iff hv.body).1 hj
    rw [(hv.holds.held m hm).operands] at hmem
    obtain ⟨l, hl, rfl⟩ := mem_map.1 ((hv.sane.rooted hv.holds).definer_mem
      (operands_visible hv.inScope m hm v hmem) hd)
    exact (hv.holds.held l hl).present

/-- **Replacing keeps a function verified.**  An operation of a verified function that is no
terminator can be replaced by values of the types of its results that are visible just before it.
What reads a result comes after the operation, in its block or in a body nested there, and sees all
that the operation has seen; so the new operands are visible where they are read, and no type that a
rule asks for has changed. -/
theorem replaceOp_verified {i : OpId} (hs : Sane e.graph) (he : Booked e)
    (hf : e.graph.verify f = .ok ()) (hi : e.graph.Contains f i)
    (hk : (e.graph.kind i).isTerminator = false)
    (htys : values.map e.graph.ty = (e.graph.op i).results.map e.graph.ty)
    (hvalues : ∀ v ∈ values, e.graph.Sees f i v) :
    ∃ e', Edit.replaceOp i values e = .ok () e' ∧ Replaced f i values e.graph e'.graph := by
  obtain ⟨b₀, params, T, hv⟩ := verify_tree hs hf
  obtain ⟨n, hn, rfl⟩ := hv.node hi
  obtain ⟨V, hplace⟩ := place_of_mem hn params
  have hhere : Here e.graph n := hv.holds.held n hn
  obtain ⟨b, pre, rest, -, -, hstart⟩ := hv.start hplace
  have hseen : ∀ v ∈ values, v ∈ V := fun v hmem => hv.visible (hvalues v hmem) hplace rfl
  obtain ⟨e', hreplace, hx⟩ :=
    Exchange.of_emitted (e := { e with point := ⟨some b, some n.id⟩ }) values hv
    hplace (by rwa [← hhere.kind]) hstart (.refl hstart) (by simp) (by simpa [outs] using hseen)
    (by rw [← hhere.results]; exact htys) (show e.graph = e.graph from rfl)
  have hbooked :=
    (Edit.replaceOp_leaves n.id he.kept (fun v hmem => hstart.visible v (hseen v hmem)) e rfl).1 _ _
    hreplace
  exact ⟨e', hreplace, hx.replaced hbooked.exact⟩

/-- A generic operation in a loop is replaced by the parameter of the function. -/
theorem replaceOp_verified_doubler :
    Sane doubler.graph ∧ Booked doubler ∧ doubler.graph.verify ⟨0⟩ = .ok () ∧
      doubler.graph.Contains ⟨0⟩ ⟨4⟩ ∧ doubler.graph.Sees ⟨0⟩ ⟨4⟩ ⟨0⟩ ∧
      ∃ e', Edit.replaceOp ⟨4⟩ [⟨0⟩] doubler = .ok () e' ∧
        Replaced ⟨0⟩ ⟨4⟩ [⟨0⟩] doubler.graph e'.graph := by
  have hsees : doubler.graph.Sees ⟨0⟩ ⟨4⟩ ⟨0⟩ :=
    .outer (b := ⟨1⟩) (j := ⟨3⟩) (by decide +kernel) (by decide +kernel) (by decide +kernel)
      (.argument (b := ⟨0⟩) (by decide +kernel) (by decide +kernel))
  have hin : doubler.graph.Contains ⟨0⟩ ⟨4⟩ := ⟨⟨0⟩, by decide +kernel, by decide +kernel⟩
  exact ⟨doubler_sane, doubler_booked, doubler_verify, hin, hsees,
    replaceOp_verified doubler_sane doubler_booked doubler_verify hin (by decide +kernel)
      (by decide +kernel) (by simpa using hsees)⟩

end Replacements

end ConvNest.Program
