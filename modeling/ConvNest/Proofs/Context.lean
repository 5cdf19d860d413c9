/-
# Replacing a node keeps the meaning

A node may be replaced by others wherever they compute its results from the same data.  `Serves`
asks for that at one store.  If the new nodes serve at every store at which the old node is
executed, then the replaced tree computes what the old one did (`runAll_replaced`), and so does a
function in which the node has been replaced (`Exchange.run`).
-/
import ConvNest.Proofs.Replace

namespace ConvNest.Program

open Node List

/-! ## 1. Walks -/

/-- Assigning to values that a renaming does not touch. -/
theorem Follows.assign_fixed {σ : ValueId → ValueId} {W : List ValueId} {S S' : Store}
    (h : Follows σ W S S') {vs : List ValueId} (hvs : ∀ u ∈ vs, ∀ v, σ v = u ↔ v = u)
    (ds : List Datum) :
    Follows σ (vs ++ W) (S.assign vs ds) (S'.assign vs ds) := by
  intro v hv
  by_cases hmem : v ∈ vs
  · rw [(hvs v hmem v).2 rfl]
    obtain ⟨k, hk⟩ := Option.isSome_iff_exists.1 (isSome_idxOf?.2 hmem)
    simp only [Store.assign, hk]
  · have hσ : σ v ∉ vs := fun hmem' => hmem ((hvs _ hmem' v).1 rfl ▸ hmem')
    rw [Store.assign_of_notMem hmem, Store.assign_of_notMem hσ]
    exact h v ((mem_append.1 hv).resolve_left hmem)

namespace Node

/-! ## 2. Trees -/

/-- The nodes `new` compute what `n` computes from the data of `S`: its results under the names that
`σ` gives them.  They may see other data, but not at the values `V`. -/
def Serves (V : List ValueId) (n : Node) (new : List Node) (σ : ValueId → ValueId) (S : Store) :
    Prop :=
  ∀ S' T, (∀ v ∈ V, S' v = S v) → n.exec S = some T →
    ∃ T', execAll new S' = some T' ∧ ∀ r ∈ n.head.results, T' (σ r) = T r

/-- The nodes `new` serve at a scene, if it is one of the node. -/
def ServesAt (V : List ValueId) (n : Node) (new : List Node) (σ : ValueId → ValueId) (s : Scene) :
    Prop :=
  s.node.id = n.id → s.point = none → Serves V n new σ s.store

/-- What is around a replaced node, where no other value takes the place of one that another node
defines. -/
structure Clear (V : List ValueId) (n : Node) (σ : ValueId → ValueId) (W : List ValueId)
    (ks : List Node) : Prop extends Around V n σ W ks where
  unmet : ∀ m ∈ sparedAll n.id ks, ∀ u ∈ m.own, ∀ v, σ v = u → v = u

section Trees

variable {V W : List ValueId} {n k : Node} {new ks : List Node} {σ : ValueId → ValueId}
  {S S' : Store}

theorem Clear.tail (h : Clear V n σ W (k :: ks)) : Clear V n σ (k.head.results ++ W) ks :=
  ⟨h.toAround.tail, fun m hm => h.unmet m (spared_tail _ k ks hm)⟩

theorem Clear.head (h : Clear V n σ W (k :: ks)) : Clear V n σ W [k] :=
  ⟨h.toAround.head, fun m hm => h.unmet m (spared_head _ k ks hm)⟩

theorem Clear.body (h : Clear V n σ W [k]) (hk : k.id ≠ n.id) : Clear V n σ (k.args ++ W) k.nodes :=
  ⟨h.toAround.body hk, fun m hm => h.unmet m (spared_body hk hm)⟩

theorem Clear.untouched (h : Clear V n σ W [k]) (hk : k.id ≠ n.id) :
    ∀ u ∈ k.own, ∀ v, σ v = u ↔ v = u := fun u hu v =>
  ⟨h.unmet k (spared_self hk) u hu v, fun heq => by rw [heq, h.own hk u hu]⟩

/-- Replacing in the body of a node keeps what the node computes. -/
def Keeps (V : List ValueId) (n : Node) (new : List Node) (σ : ValueId → ValueId) (k : Node) :
    Prop :=
  k.id ≠ n.id → ∀ W S S' T, Clear V n σ W [k] → k.Scoped W → Follows σ W S S' →
    (∀ s ∈ k.log W S, ServesAt V n new σ s) → k.exec S = some T →
    ∃ T', (k.replaced n.id new σ).exec S' = some T' ∧ Follows σ (k.head.results ++ W) T T'

/-- What the nodes of a replaced block start from. -/
structure Resembles (V : List ValueId) (n : Node) (σ : ValueId → ValueId) (W : List ValueId)
    (ks : List Node) (S S' : Store) : Prop where
  around : Clear V n σ W ks
  inScope : ScopedAll W ks
  follows : Follows σ W S S'

variable {ds : List Datum} (hV : ∀ v ∈ V, σ v = v) (hout : ∀ v ∈ V, v ∉ outs new)
  (hnew : ∀ m ∈ new, m.head.kind.isTerminator = false) (hn : n.head.kind.isTerminator = false)

include hV hout hnew hn

theorem runAll_replaced_of (ih : ∀ k ∈ ks, Keeps V n new σ k) (h : Resembles V n σ W ks S S')
    (hlog : ∀ s ∈ logAll W ks S, ServesAt V n new σ s) (hrun : runAll ks S = some ds) :
    runAll (replacedAll n.id new σ ks) S' = some ds := by
  induction ks generalizing W S S' with
  | nil => simp [runAll_nil] at hrun
  | cons k ks tail =>
    obtain ⟨hk, hks⟩ := scopedAll_cons.1 h.inScope
    have htail := fun W S S' => @tail W S S' (fun m hm => ih m (mem_cons_of_mem _ hm))
    rw [replacedAll_cons]
    cases hterm : k.head.kind.isTerminator with
    | true =>
      have hid : k.id ≠ n.id := fun hid => by
        rw [(h.around.here hid).2, hn] at hterm
        cases hterm
      rw [runAll_terminator hterm] at hrun
      rw [if_neg hid, singleton_append, runAll_terminator (by rw [replaced_head]; exact hterm),
        replaced_head, ← hrun]
      exact mapM_renamed fun v hv => h.follows v ((scoped_iff.1 hk).1 v hv)
    | false =>
      rw [runAll_cons hterm, Option.bind_eq_some_iff] at hrun
      obtain ⟨T, hT, hrun⟩ := hrun
      rw [logAll_cons hterm, hT] at hlog
      have hlater := fun s hs => hlog s (mem_append_right _ hs)
      by_cases hid : k.id = n.id
      · obtain ⟨rfl, rfl⟩ := h.around.here hid
        rw [if_pos hid, runAll_append hnew]
        have hagree : ∀ v ∈ W, S' v = S v := fun v hv => by
          have := h.follows v hv
          rwa [hV v hv] at this
        obtain ⟨T', hT', hresults⟩ := hlog _ (mem_append_left _ (scene_mem_log k W S)) rfl rfl
          S' T hagree hT
        rw [hT', Option.bind_some]
        refine htail _ _ _ ⟨h.around.tail, hks, fun v hv => ?_⟩ hlater hrun
        by_cases hr : v ∈ k.head.results
        · exact hresults v hr
        · have hv := (mem_append.1 hv).resolve_left hr
          rw [hV v hv, execAll_frame hT' (hout v hv), exec_frame hT hr]
          exact hagree v hv
      · rw [if_neg hid, singleton_append,
          runAll_cons (by rw [replaced_head]; exact hterm)]
        obtain ⟨T', hT', hfollows⟩ := ih k mem_cons_self hid W S S' T h.around.head hk h.follows
          (fun s hs => hlog s (mem_append_left _ hs)) hT
        rw [hT', Option.bind_some]
        exact htail _ _ _ ⟨h.around.tail, hks, hfollows⟩ hlater hrun

theorem exec_replaced (k : Node) : Keeps V n new σ k := by
  induction k using Node.induct with
  | mk j hd b as ms ih =>
    intro hid W S S' T h hs hS hlog hT
    obtain ⟨hoperands, hnodes⟩ := scoped_iff.1 hs
    have hop : Follows σ hd.operands S S' := hS.mono hoperands
    have hresults (ds : List Datum) := hS.assign_fixed
      (fun u hu => h.untouched hid u (mem_append_left _ hu)) ds
    have hargs (ds : List Datum) := hS.assign_fixed
      (fun u hu => h.untouched hid u (mem_append_right _ hu)) ds
    have hbody (ds : List Datum)
        (hlog : ∀ s ∈ logAll (as ++ W) ms (S.assign as ds), ServesAt V n new σ s) {ys : List Datum}
        (hrun : runAll ms (S.assign as ds) = some ys) :
        runAll (replacedAll n.id new σ ms) (S'.assign as ds) = some ys :=
      runAll_replaced_of hV hout hnew hn ih ⟨h.body hid, hnodes, hargs ds⟩ hlog hrun
    have hmove : hd.move σ = hd.rename σ := move_eq fun v hv =>
      h.own hid v (mem_append_left _ hv)
    have hreads : Reads .same (mk j hd b as ms) ((mk j hd b as ms).replaced n.id new σ) S S' :=
      .of_rename (by rw [replaced_head, head_mk, hmove]) (by rw [replaced_args]) hop.same
    obtain ⟨ds, rfl, hT'⟩ := hreads.retrace_same (fun ds ys hserves hrun => by
      exact hbody ds hserves hrun) hlog hT
    exact ⟨_, hT', hresults ds⟩

/-- **Trees in which a node is replaced by nodes that serve compute what they did.** -/
theorem runAll_replaced (h : Resembles V n σ W ks S S')
    (hlog : ∀ s ∈ logAll W ks S, ServesAt V n new σ s) (hrun : runAll ks S = some ds) :
    runAll (replacedAll n.id new σ ks) S' = some ds :=
  runAll_replaced_of hV hout hnew hn (fun k _ => exec_replaced hV hout hnew hn k) h hlog hrun

end Trees

end Node

/-! ## 3. Functions -/

section Functions

variable {f : FuncId} {b₀ : BlockId} {params : List ValueId} {T : List Node} {V : List ValueId}
  {n : Node} {b : BlockId} {pre rest : List OpId} {new : List Node} {values : List ValueId}
  {e e₁ e₂ : Editor} (x : Exchange f b₀ params T V n b pre rest new values e e₁ e₂)

include x

theorem Exchange.accepts {args : List Tensor} (h : e.graph.Accepts params args) :
    e₂.graph.Accepts params args := by
  refine ⟨h.1, fun k v t hv ht => ?_⟩
  have hlt := x.before.holds.defs_lt x.before.sane v
    (mem_append_left _ (mem_of_getElem? hv))
  rw [x.ty_eq, x.emitted.grows.ty v hlt]
  exact h.2 k v t hv ht

/-- What new nodes compute takes the place of no value of a spared node. -/
theorem Exchange.clear (hcomputed : ∀ v ∈ values, v ∈ outs new) :
    Clear V n (Exchange.subst n values) params T := by
  refine ⟨x.around, fun m hm u hu v heq => ?_⟩
  by_cases hv : v ∈ n.head.results
  · have hnew := x.emitted.defsNew _ (outs_subset_defs new (hcomputed _ (x.subst_mem hv)))
    rw [heq] at hnew
    have hdef : u ∈ defs T := mem_defs.2 ⟨m, sparedAll_subset hm, hu⟩
    exact absurd (x.before.holds.held.defs_lt x.before.sane u hdef) (Nat.not_lt.2 hnew)
  · exact (Exchange.subst_of_notMem hv).symm.trans heq

/-- **A function in which a node is replaced by nodes that serve computes what it did.** -/
theorem Exchange.run (hcomputed : ∀ v ∈ values, v ∈ outs new) {args ts : List Tensor}
    (h : e.graph.run f args = .ok ts)
    (hserves : ∀ s ∈ logAll params T (startStore params args),
      ServesAt V n new (Exchange.subst n values) s) :
    e₂.graph.run f args = .ok ts := by
  obtain ⟨hacc, hcall⟩ := x.before.run_iff.1 h
  obtain ⟨ds, hds, hts⟩ := Option.bind_eq_some_iff.1 hcall
  have hout : ∀ v ∈ V, v ∉ outs new := fun v hv hmem =>
    Nat.not_lt.2 (x.emitted.defsNew v (outs_subset_defs new hmem)) (x.start.visible v hv)
  have hrun := runAll_replaced (fun v hv => x.subst_visible hv) hout x.newInner x.inner
    ⟨x.clear hcomputed, x.before.inScope, fun v hv => by rw [x.subst_param hv]⟩ hserves hds
  exact x.valid.run_iff.2 ⟨x.accepts hacc, Option.bind_eq_some_iff.2 ⟨ds, hrun, hts⟩⟩

end Functions

end ConvNest.Program
