/-
# Building exchanged loops

The copies that make up the new loops can be made (`innerBody_emits`), and their names stay apart
(`renames_of_copied`).
-/
import ConvNest.Proofs.CopyNames
import ConvNest.Proofs.Segment
import ConvNest.Proofs.SwapThreads

namespace ConvNest

open Program Node List

namespace Program

/-! ## 1. Loops that still stand -/

theorem Node.subsAll_perm {ms ns : List Node} (h : ms.Perm ns) :
    (subsAll ms).Perm (subsAll ns) := by
  induction h with
  | nil => exact .refl _
  | cons n _ ih =>
    exact ih.append_left _
  | swap m n ns =>
    simp only [subsAll_cons, ← append_assoc]
    exact perm_append_comm.append_right _
  | trans _ _ ih ih' => exact ih.trans ih'

/-- A tree stands in the graph where `V` is visible, and keeps the rules. -/
structure Stands (V : List ValueId) (n : Node) (g : Graph) : Prop where
  sane : Sane g
  held : Held g [n]
  lt : n.id.idx < g.ops.size
  rules : ∀ m ∈ n.subs, Rules g m
  inScope : n.Scoped V
  visible : ∀ v ∈ V, v.idx < g.values.size

namespace Stands

variable {V : List ValueId} {n : Node} {g g' : Graph} (h : Stands V n g)

include h

theorem here : Here g n := h.held.here mem_cons_self

/-- Nodes of the tree. -/
theorem part {ks : List Node} (hks : ∀ k ∈ subsAll ks, k ∈ n.subs) :
    Held g ks ∧ (∀ k ∈ subsAll ks, Rules g k) ∧ ∀ k ∈ ks, k.id.idx < g.ops.size := by
  refine ⟨fun k hk => h.held k (by simpa using hks k hk), fun k hk => h.rules k (hks k hk),
    fun k hk => ?_⟩
  refine h.held.ids_lt h.sane (by simpa using h.lt) k.id (mem_map_of_mem ?_)
  simpa using hks k (mem_subsAll_of_mem hk)

/-- The tree stands in a graph that grows elsewhere. -/
theorem grow {b : Option BlockId} (hgrows : Extends g g' b) (hsane : Sane g')
    (hb : ∀ m ∈ n.subs, ∀ c, m.body = some c → some c ≠ b) : Stands V n g' where
  sane := hsane
  held := hgrows.held h.sane h.held (by simpa using h.lt) (by simpa using hb)
  lt := Nat.lt_of_lt_of_le h.lt hgrows.opsLe
  rules m hm := hgrows.natural natural_rules (fun v hv => by
    have hscoped : ScopedAll V [n] := by simpa using h.inScope
    have hmem := names_visible hscoped m (by simpa using hm) v hv
    exact (mem_append.1 hmem).elim (h.visible v) (h.held.defs_lt h.sane v)) (h.rules m hm)
  inScope := h.inScope
  visible v hv := Nat.lt_of_lt_of_le (h.visible v hv) hgrows.valuesLe

end Stands

namespace Threads

variable {V : List ValueId} {n : Node} {p : PairParts} {g : Graph}

/-- The types of the loop variables, and of what is carried. -/
structure Typed (p : PairParts) (g : Graph) : Prop where
  outerIv : g.ty p.outerIv = .index
  innerIv : g.ty p.innerIv = .index
  innerCarried : p.innerCarried.map g.ty = p.inits.map g.ty
  yields : p.yields.map g.ty = p.inits.map g.ty

theorem typed (h : Threads V n p) (hst : Stands V n g) : Typed p g := by
  have hrules := hst.rules n (by rw [subs_eq]; simp)
  have hmrules := hst.rules p.inner (mem_subs_of_mem_nodes h.inner_mem)
  obtain ⟨z, hinner, hterm, hz⟩ := h.innerBody
  have hargs := hrules.loopArgs h.outerKind
  have hinits := hrules.loopInits h.outerKind
  have hargs' := hmrules.loopArgs h.innerKind
  have hinits' := hmrules.loopInits h.innerKind
  have hyields := hmrules.loopYields h.innerKind z (by simp [hinner]) hterm
  rw [h.outerArgs, drop_succ_cons, drop_zero] at hargs
  rw [h.outerInits] at hinits
  rw [h.innerArgs, drop_succ_cons, drop_zero] at hargs'
  rw [h.innerInits] at hinits'
  rw [hz] at hyields
  refine ⟨hrules.loopVariable h.outerKind _ (by rw [h.outerArgs]; rfl),
    hmrules.loopVariable h.innerKind _ (by rw [h.innerArgs]; rfl), ?_, ?_⟩
  · rw [hargs', ← hinits', hargs, hinits]
  · rw [hyields, ← hinits', hargs, hinits]

end Threads

end Program

namespace Conv

open Edit

section Parts

variable {V : List ValueId} {n k : Node} {p : PairParts} {sunk hoisted : List Node}
  (hpair : Threads V n p) (hsplit : Splits V p sunk hoisted) {e : Editor}
variable {iv v : ValueId} {g : Graph} {ds : List ValueId}

include hsplit

/-- The names of what the loops define, with the operations before the inner loop split. -/
theorem names_perm : (p.innerIv :: p.outerIv :: (p.innerCarried ++
    (defs sunk ++ defs hoisted ++ defs p.body))).Perm p.names := by
  have hdefs : (defs sunk ++ defs hoisted).Perm (defs p.prior) := by
    rw [← defs_append]
    exact (subsAll_perm hsplit.perm).flatMap_right own
  exact (((hdefs.append_right _).append_left _).cons _).cons _

include hpair

/-- What moves into the new inner loop, and its body, see what they are given. -/
theorem scoped_moved : ScopedAll (p.innerCarried ++ p.outerIv :: (outs hoisted ++ p.innerIv :: V))
    (sunk ++ p.body) := by
  obtain ⟨z, hinner, -, -⟩ := hpair.innerBody
  have hs := hpair.scopedInner
  rw [hinner, scopedAll_append] at hs
  refine scopedAll_append.2 ⟨hsplit.scopedSunk.mono fun v hv => ?_, hs.1.mono fun v hv => ?_⟩
  · simp only [mem_append, mem_cons] at hv ⊢
    tauto
  · have hprior : v ∈ outs p.prior → v ∈ outs sunk ∨ v ∈ outs hoisted := fun hout => by
      rwa [← mem_outs_perm hsplit.perm, outs_append, mem_append] at hout
    simp only [mem_append, mem_cons] at hv ⊢
    tauto

theorem apart_moved (hv : v ∈ p.innerCarried ++ p.outerIv :: (defs hoisted ++ p.innerIv :: V)) :
    v ∉ defs (sunk ++ p.body) := by
  have hnodup := (names_perm hsplit).nodup_iff.2 hpair.namesNodup
  rw [defs_append]
  intro hd
  have hnames : v ∈ p.names := (names_perm hsplit).mem_iff.1 (by
    simp only [mem_cons, mem_append] at hd ⊢
    tauto)
  have hV := hpair.names_notMem hnames
  simp only [nodup_cons, nodup_append] at hnodup hv hd
  grind

theorem apart_outs (hv : v ∈ p.innerCarried ++ p.outerIv :: (outs hoisted ++ p.innerIv :: V)) :
    v ∉ defs (sunk ++ p.body) := by
  refine apart_moved hpair hsplit ?_
  have hout := outs_subset_defs hoisted (a := v)
  simp only [mem_append, mem_cons] at hv ⊢
  tauto

theorem apart_hoisted (hv : v ∈ p.innerIv :: V) : v ∉ defs hoisted := by
  have hnodup := (names_perm hsplit).nodup_iff.2 hpair.namesNodup
  intro hd
  have hnames : v ∈ p.names := (names_perm hsplit).mem_iff.1 (by
    simp only [mem_cons, mem_append]
    tauto)
  have hV := hpair.names_notMem hnames
  simp only [nodup_cons, mem_append, mem_cons] at hnodup hv
  grind

theorem moved_mem (hk : k ∈ subsAll (sunk ++ p.body)) : k ∈ n.subs := by
  rw [subsAll_append, mem_append] at hk
  refine hpair.subs_mem (hk.imp_left fun hk => ?_)
  refine (subsAll_perm hsplit.perm).mem_iff.1 ?_
  rw [subsAll_append]
  exact mem_append_left _ hk

theorem hoisted_mem (hk : k ∈ subsAll hoisted) : k ∈ n.subs := by
  refine hpair.subs_mem (.inl ((subsAll_perm hsplit.perm).mem_iff.1 ?_))
  rw [subsAll_append]
  exact mem_append_right _ hk

/-- Nothing that is copied is named twice. -/
theorem copied_nodup (hst : Stands V n g) : ((ids (sunk ++ p.body)).Nodup ∧ (ids hoisted).Nodup) ∧
      (defs (sunk ++ p.body)).Nodup ∧ (defs hoisted).Nodup := by
  constructor
  · obtain ⟨y, hnodes, -, -⟩ := hpair.outerBody
    obtain ⟨z, hinner, -, -⟩ := hpair.innerBody
    have hids := hst.held.ids_nodup hst.sane
    have hperm : (ids (sunk ++ hoisted)).Perm (ids p.prior) := (subsAll_perm hsplit.perm).map _
    rw [ids_cons, hnodes, ids_append, ids_cons, hinner, ids_append] at hids
    have hprior : (ids (sunk ++ hoisted)).Nodup := hperm.nodup_iff.2 (by grind)
    have hmem : ∀ i ∈ ids sunk, i ∈ ids p.prior := fun i hi => hperm.mem_iff.1 (by simp [hi])
    rw [ids_append] at hprior ⊢
    simp only [nodup_append, nodup_cons] at hids hprior ⊢
    grind
  · have hnodup := (names_perm hsplit).nodup_iff.2 hpair.namesNodup
    rw [defs_append]
    simp only [nodup_cons] at hnodup ⊢
    grind

/-! ## 3. The new inner body -/

omit hpair hsplit in
theorem cloneAll_append_bind {α : Type} (xs ys : List OpId) (m : Mapping) (k : Mapping → Edit α) :
    (cloneAll xs m >>= fun m => cloneAll ys m >>= k) = cloneAll (xs ++ ys) m >>= k := by
  simp only [cloneAll, foldlM_append, bind_assoc]

omit hsplit in
/-- The operations of the inner body but its end. -/
theorem body_filter (hst : Stands V n g) :
    (g.bodyOps p.inner.id).filter (fun i => !(g.kind i).isTerminator) = p.body.map Node.id := by
  obtain ⟨z, hinner, hterm, -⟩ := hpair.innerBody
  have hm := mem_subs_of_mem_nodes hpair.inner_mem
  have hin {k : Node} (hk : k ∈ p.inner.nodes) : Here g k :=
    hst.held k (by simpa using subs_trans hm (mem_subs_of_mem_nodes hk))
  have hmhere : Here g p.inner := hst.held p.inner (by simpa using hm)
  rw [hmhere.bodyOps_eq, hinner, map_append, filter_append, filter_eq_self.2 fun i hi => ?_,
    filter_eq_nil_iff.2 fun i hi => ?_, append_nil]
  · obtain ⟨k, hk, rfl⟩ := mem_map.1 hi
    obtain rfl := mem_singleton.1 hk
    simp [(hin (k := k) (by simp [hinner])).kind, hterm]
  · obtain ⟨k, hk, rfl⟩ := mem_map.1 hi
    simp [(hin (k := k) (by simp [hinner, hk])).kind, hpair.bodyInner k hk]

theorem innerBody_emits {W : List ValueId} {c : BlockId} (hst : Stands V n e.graph)
    (hs : Start W c [] [] e) (hc : ∀ m ∈ n.subs, m.body ≠ some c) {m : Mapping}
    (hsees : Sees (outs hoisted ++ p.innerIv :: V) W m e.graph)
    (hiv : iv ∈ W) (hivty : e.graph.ty iv = .index) (hds : ∀ d ∈ ds, d ∈ W)
    (hdtys : ds.map e.graph.ty = p.inits.map e.graph.ty) : Emits W c [] [] e
      (innerBody ⟨n.id, p.inner.id, sunk.map Node.id, hoisted.map Node.id⟩ m iv ds) fun r e' ns =>
        r.1 = p.yields.map r.2.lookup ∧ r.1.map e'.graph.ty = p.inits.map e.graph.ty ∧
        (∀ y ∈ r.1, y ∈ outs ns ++ W) ∧ (∀ k ∈ ns, k.head.kind.isTerminator = false) ∧
        ∃ m₀, (m.insert p.outerIv iv).insertAll p.innerCarried ds = .ok m₀ ∧
          Copied (sunk ++ p.body) ns m₀ r.2 e e' (some c) := by
  have hm := mem_subs_of_mem_nodes hpair.inner_mem
  have hmhere : Here e.graph p.inner := hst.held p.inner (by simpa using hm)
  have htyped := hpair.typed hst
  obtain ⟨z, hinner, hterm, hz⟩ := hpair.innerBody
  have hzhere : Here e.graph z := hst.held z (by
    simpa using subs_trans hm (mem_subs_of_mem_nodes (by simp [hinner])))
  obtain ⟨hheld, hrules, hlt⟩ := hst.part fun k hk => moved_mem hpair hsplit hk
  obtain ⟨⟨hids, -⟩, hdefs, -⟩ := copied_nodup hpair hsplit hst
  have hown {v : ValueId} (hv : v ∈ defs [n]) : v.idx < e.graph.values.size :=
    hst.held.defs_lt hst.sane v hv
  have houterIv : p.outerIv ∈ defs [n] := mem_defs.2 ⟨n, by simp, by simp [own, hpair.outerArgs]⟩
  have hcarried : ∀ v ∈ p.innerCarried, v ∈ defs [n] := fun v hv =>
    mem_defs.2 ⟨p.inner, by simpa using hm, by simp [own, hpair.innerArgs, hv]⟩
  have hlen : p.innerCarried.length = ds.length := by
    have := congrArg List.length (hdtys.trans htyped.innerCarried.symm)
    simpa using this.symm
  obtain ⟨m₀, hm₀⟩ : ∃ m₀, (m.insert p.outerIv iv).insertAll p.innerCarried ds = .ok m₀ :=
    ⟨_, Mapping.insertAll_eq _ hlen⟩
  have hsees' := (hsees.insert (hown houterIv) hiv (hivty.trans htyped.outerIv.symm)).insertAll hm₀
    (fun v hv => hown (hcarried v hv)) hds (hdtys.trans htyped.innerCarried.symm)
  have hsrc := hsees'.source hs.visible hst.sane hheld hlt (scoped_moved hpair hsplit) hdefs
    (fun v hv => apart_outs hpair hsplit hv) hids
  refine Emits.read (graph_ok.2 ⟨rfl, rfl⟩) ?_
  refine Emits.ask (hst.here.inductionVar_eq hpair.outerArgs) ?_
  refine Emits.ask (hmhere.carried_eq hpair.innerArgs) ?_
  refine Emits.ask hm₀ ?_
  rw [body_filter hpair hst, cloneAll_append_bind, ← map_append]
  refine Emits.bind hs (cloneAll_emits hs hsrc hrules
    (fun k hk => hc k (moved_mem hpair hsplit hk)) hsees'.mem) fun m' e' ns hemitted hcopied => ?_
  refine Emits.ask (hmhere.yielded_eq hzhere hinner hterm) ?_
  -- what is yielded is defined in the body, or visible to it
  have hyields : ∀ y ∈ p.yields, y ∈ outs (sunk ++ p.body) ++
      (p.innerCarried ++ p.outerIv :: (outs hoisted ++ p.innerIv :: V)) := by
    intro y hy
    have hscope := hpair.scopedInner
    rw [hinner, scopedAll_append] at hscope
    have hmem := (scoped_iff.1 (scopedAll_cons.1 hscope.2).1).1 y (by rwa [hz])
    have hprior : y ∈ outs p.prior → y ∈ outs sunk ∨ y ∈ outs hoisted := fun hout => by
      rwa [← mem_outs_perm hsplit.perm, outs_append, mem_append] at hout
    rw [outs_append]
    simp only [mem_append, mem_cons] at hmem ⊢
    tauto
  have hsaw := hsees'.copied hs.visible hcopied
    (fun v hv => hheld.defs_lt hst.sane v (outs_subset_defs _ hv))
    (fun v hv => apart_outs hpair hsplit hv)
  refine Emits.pure hemitted.next ?_
  rw [append_nil, hz]
  refine ⟨rfl, ?_, fun y hy => ?_, hcopied.maps.inner fun k hk => ?_, m₀, hm₀, hcopied⟩
  · rw [map_map, ← htyped.yields]
    refine map_congr_left fun y hy => (hsaw.ty y (hyields y hy)).trans (hcopied.grows.ty y ?_)
    rcases mem_append.1 (hyields y hy) with h | h
    · exact hheld.defs_lt hst.sane _ (outs_subset_defs _ h)
    · exact hsees'.lt _ h
  · obtain ⟨v, hv, rfl⟩ := mem_map.1 hy
    exact hsaw.mem v (hyields v hv)
  · rcases mem_append.1 hk with hk | hk
    · exact hpair.priorInner k (hsplit.perm.mem_iff.1 (mem_append_left _ hk))
    · exact hpair.bodyInner k hk

/-! ## 4. The names of the copies -/

/-- The names that all copies together have. -/
structure Renames (V : List ValueId) (p : PairParts) (hoisted hoisted' : List Node) (iv : ValueId)
    (ds : List ValueId) (iv' : ValueId) (ds' : List ValueId) (ρ : ValueId → ValueId) : Prop where
  maps : MapsAll ρ hoisted hoisted'
  fixed : ∀ v ∈ V, ρ v = v
  innerIv : ρ p.innerIv = iv
  outerIv : ρ p.outerIv = iv'
  innerCarried : p.innerCarried.map ρ = ds'
  separates : Separates ρ p.names (p.names ++ V)
  avoids : ∀ v ∈ p.names ++ V, ρ v ∉ ds

omit hsplit in
/-- The first name that is given. -/
theorem named_innerIv (hV : ∀ v ∈ V, v.idx < g.values.size ∧ v ≠ iv ∧ v ∉ ds) (hne : iv ∉ ds)
    (hiv : iv.idx < g.values.size) (hds : ∀ d ∈ ds, d.idx < g.values.size) :
    Named ds [p.innerIv] (p.innerIv :: V) (Mapping.empty.insert p.innerIv iv) g := by
  have hlookup {v : ValueId} (hv : v ∈ p.innerIv :: V) : v = p.innerIv ∧
      (Mapping.empty.insert p.innerIv iv).lookup v = iv ∨
        v ∈ V ∧ (Mapping.empty.insert p.innerIv iv).lookup v = v := by
    rw [Mapping.lookup_insert, Mapping.lookup_empty]
    rcases mem_cons.1 hv with rfl | hv
    · exact .inl ⟨rfl, if_pos rfl⟩
    · refine .inr ⟨hv, if_neg fun heq => hpair.names_notMem ?_ (heq ▸ hv)⟩
      simp [PairParts.names]
  refine ⟨by simp, fun u hu v hv heq => ?_, fun v hv => ?_, fun v hv => ?_, hds⟩
  · obtain rfl := mem_singleton.1 hu
    rw [Mapping.lookup_insert, if_pos rfl] at heq
    rcases hlookup hv with ⟨rfl, -⟩ | ⟨hv, hsame⟩
    · rfl
    · exact absurd (hsame.symm.trans heq.symm) (hV v hv).2.1
  · rcases hlookup hv with ⟨-, hsame⟩ | ⟨hv, hsame⟩ <;> rw [hsame]
    · exact hiv
    · exact (hV v hv).1
  · rcases hlookup hv with ⟨-, hsame⟩ | ⟨hv, hsame⟩ <;> rw [hsame]
    · exact hne
    · exact (hV v hv).2.2

theorem renames_of_copied {hoisted' ks : List Node} {m₀ m₁ m₂ : Mapping} {e₁ e₂ e₃ : Editor}
    {b b' : Option BlockId} {iv' : ValueId} {ds' : List ValueId}
    (hcopied : Copied hoisted hoisted' (Mapping.empty.insert p.innerIv iv) m₁ e e₁ b)
    (hm₀ : (m₁.insert p.outerIv iv').insertAll p.innerCarried ds' = .ok m₀)
    (hcopied' : Copied (sunk ++ p.body) ks m₀ m₂ e₂ e₃ b')
    (hV : ∀ v ∈ V, v.idx < e.graph.values.size ∧ v ≠ iv ∧ v ∉ ds) (hne : iv ∉ ds)
    (hiv : iv.idx < e.graph.values.size) (hds : ∀ d ∈ ds, d.idx < e.graph.values.size)
    (hnew : ∀ v ∈ iv' :: ds', e₁.graph.values.size ≤ v.idx) (hnodup' : (iv' :: ds').Nodup)
    (hlt : ∀ v ∈ iv' :: ds', v.idx < e₂.graph.values.size)
    (hle : e₁.graph.values.size ≤ e₂.graph.values.size) :
    Renames V p hoisted hoisted' iv ds iv' ds' m₂.lookup := by
  have hnodup := (names_perm hsplit).nodup_iff.2 hpair.namesNodup
  simp only [nodup_cons, nodup_append, mem_append] at hnodup
  have houter : p.outerIv ∉ p.innerCarried := by tauto
  have hnamed := (named_innerIv hpair hV hne hiv hds).copied hcopied
    fun v hv => apart_hoisted hpair hsplit hv
  -- the second loop gives more names
  obtain ⟨hcarried, hothers, -⟩ := Mapping.insertAll_lookup hm₀ (by tauto)
  have houterIv : m₀.lookup p.outerIv = iv' := by
    rw [hothers _ houter, Mapping.lookup_insert, if_pos rfl]
  have hmap : (p.outerIv :: p.innerCarried).map m₀.lookup = iv' :: ds' := by
    rw [map_cons, hcarried, houterIv]
  have hnamedMem {v : ValueId} (hv : v ∈ p.outerIv :: p.innerCarried) : m₀.lookup v ∈ iv' :: ds' :=
    hmap ▸ mem_map_of_mem hv
  have hold {v : ValueId} (hv : v ∈ defs hoisted ++ p.innerIv :: V) : m₀.lookup v =
      m₁.lookup v := by
    have hne : ∀ u ∈ p.outerIv :: p.innerCarried, u ≠ v := by
      rintro u hu rfl
      have hV' := hpair.names_notMem (u := u) (by
        simp only [PairParts.names, mem_cons, mem_append] at hu ⊢
        tauto)
      grind
    rw [hothers v fun hmem => hne v (mem_cons_of_mem _ hmem) rfl, Mapping.lookup_insert,
      if_neg (hne _ mem_cons_self)]
  have hnamed' := (hnamed.extend (N := p.outerIv :: p.innerCarried) hle (fun v hv => hold hv)
    (fun v hv => hnew _ (hnamedMem hv)) (fun v hv => hlt _ (hnamedMem hv))
    (fun u hu v hv => inj_on_of_nodup_map (hmap ▸ hnodup') hu hv)).copied hcopied' fun v hv =>
      apart_moved hpair hsplit (by
        simp only [mem_cons, mem_append] at hv ⊢
        tauto)
  have hsame {v : ValueId}
      (hv : v ∈ p.innerCarried ++ p.outerIv :: (defs hoisted ++ p.innerIv :: V)) :=
    hcopied'.same v (apart_moved hpair hsplit hv)
  have hsub : p.names ⊆ defs (sunk ++ p.body) ++ (p.outerIv :: p.innerCarried ++
      (defs hoisted ++ [p.innerIv])) := fun v hv => by
    have := (names_perm hsplit).mem_iff.2 hv
    simp only [defs_append, mem_append, mem_cons]
      at this ⊢
    tauto
  have hsub' : p.names ++ V ⊆ defs (sunk ++ p.body) ++ (p.outerIv :: p.innerCarried ++
      (defs hoisted ++ p.innerIv :: V)) := fun v hv => by
    have := hsub (a := v)
    simp only [mem_append, mem_cons] at this hv ⊢
    tauto
  have hfirst {v : ValueId} (hv : v ∈ p.innerIv :: V) :
      m₂.lookup v = (Mapping.empty.insert p.innerIv iv).lookup v := by
    rw [hsame (by simp only [mem_cons, mem_append] at hv ⊢; tauto),
      hold (mem_append_right _ hv), hcopied.same v (apart_hoisted hpair hsplit hv)]
  refine ⟨hcopied.maps.congr fun k hk v hv => ?_, fun v hv => ?_, ?_, ?_, ?_,
    hnamed'.separates.mono hsub hsub', fun v hv => hnamed'.avoids v (hsub' hv)⟩
  · have hmem : v ∈ defs hoisted ++ p.innerIv :: V := by
      rcases mem_append.1 hv with hv | hv
      · have := operands_visible hsplit.scopedHoisted k hk v hv
        simp only [mem_append] at this ⊢
        tauto
      · exact mem_append_left _ (mem_defs.2 ⟨k, hk, hv⟩)
    rw [hsame (mem_append_right _ (mem_cons_of_mem _ hmem)), hold hmem]
  · rw [hfirst (mem_cons_of_mem _ hv), Mapping.lookup_insert, if_neg, Mapping.lookup_empty]
    exact fun heq => hpair.names_notMem (by simp [PairParts.names]) (heq ▸ hv)
  · rw [hfirst mem_cons_self, Mapping.lookup_insert, if_pos rfl]
  · rw [hsame (by simp), houterIv]
  · rw [← hcarried]
    exact map_congr_left fun v hv => hsame (mem_append_left _ hv)

end Parts

end Conv

end ConvNest
