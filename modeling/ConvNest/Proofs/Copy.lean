/-
# Duplicates

A copy of an operation is a tree that has what the source has under new names: `Copied` collects
what is known of it.  The mapping that a copy answers gives each value that the source defines its
new name, and leaves the others as they were.

Copying never fails: the mapping is asked only for lists of equal length, and the bound on the depth
of nesting is one that no tree of the graph reaches (`copy_duplicates`).  So copies to the insertion
point are emitted (`cloneAll_emits`).
-/
import ConvNest.Proofs.Emits

namespace ConvNest.Program

open Node Graph List

/-! ## 1. Mappings -/

namespace Mapping

variable {m m' : Mapping}

theorem lookup_insert (m : Mapping) (src dst v : ValueId) :
    (m.insert src dst).lookup v = if src = v then dst else m.lookup v := by
  have hiff : compare src.idx v.idx = .eq ↔ src = v := by
    cases src
    cases v
    simp
  simp only [lookup, insert, Std.TreeMap.getD_insert, hiff]

variable {src dst : List ValueId} {g : Graph}

theorem insertAll_ok (h : m.insertAll src dst = .ok m') :
    src.length = dst.length ∧ m' = (src.zip dst).foldl (fun m p => m.insert p.1 p.2) m := by
  unfold insertAll at h
  split at h
  · cases h
  · next hlen => exact ⟨not_not.1 hlen, (Except.ok.inj h).symm⟩

theorem insertAll_eq (m : Mapping) (h : src.length = dst.length) :
    m.insertAll src dst = .ok ((src.zip dst).foldl (fun m p => m.insert p.1 p.2) m) :=
  if_neg fun hne => hne h

/-- A value is mapped as before, or to one of the new names. -/
theorem insertAll_lookup_or (h : m.insertAll src dst = .ok m') (v : ValueId) :
    m'.lookup v = m.lookup v ∨ m'.lookup v ∈ dst := by
  obtain ⟨-, rfl⟩ := insertAll_ok h
  clear h
  induction src generalizing dst m with
  | nil => exact .inl rfl
  | cons s src ih =>
    cases dst with
    | nil => exact .inl rfl
    | cons d dst =>
      rcases @ih (m.insert s d) dst with heq | hmem
      · rw [zip_cons_cons, foldl_cons, heq, lookup_insert]
        split <;> simp
      · exact .inr (mem_cons_of_mem _ hmem)

theorem lookupOp_foldl (ps : List (ValueId × ValueId)) (m : Mapping) (j : OpId) :
    (ps.foldl (fun m p => m.insert p.1 p.2) m).lookupOp j = m.lookupOp j := by
  induction ps generalizing m with
  | nil => rfl
  | cons p ps ih =>
    rw [foldl_cons, ih]
    rfl

theorem lookup_foldl_of_notMem {v : ValueId} (hv : v ∉ src) :
    ((src.zip dst).foldl (fun m p => m.insert p.1 p.2) m).lookup v = m.lookup v := by
  induction src generalizing dst m with
  | nil => rfl
  | cons s src ih =>
    cases dst with
    | nil => rfl
    | cons d dst =>
      rw [zip_cons_cons, foldl_cons, ih fun h => hv (mem_cons_of_mem _ h),
        lookup_insert, if_neg fun h : s = v => hv (h ▸ mem_cons_self)]

/-- Values that are mapped together are mapped one by one, and all others as before. -/
theorem insertAll_lookup (h : m.insertAll src dst = .ok m') (hnodup : src.Nodup) :
    src.map m'.lookup = dst ∧ (∀ v ∉ src, m'.lookup v = m.lookup v) ∧
      ∀ j, m'.lookupOp j = m.lookupOp j := by
  obtain ⟨hlen, rfl⟩ := insertAll_ok h
  refine ⟨?_, fun v hv => lookup_foldl_of_notMem hv, lookupOp_foldl _ m⟩
  clear h
  induction src generalizing dst m with
  | nil => exact (length_eq_zero_iff.1 hlen.symm).symm
  | cons s src ih =>
    obtain ⟨d, dst, rfl⟩ := exists_cons_of_length_eq_add_one hlen.symm
    obtain ⟨hs, hsrc⟩ := nodup_cons.1 hnodup
    simp only [zip_cons_cons, foldl_cons, map_cons]
    rw [ih (m := m.insert s d) hsrc (Nat.succ.inj hlen), lookup_foldl_of_notMem hs, lookup_insert,
      if_pos rfl]

/-- The values `D` have been given new names, of the same types, and the others are mapped as
before. -/
structure Renames (D : List ValueId) (m m' : Mapping) (g g' : Graph) : Prop where
  same : ∀ v, v ∉ D → m'.lookup v = m.lookup v
  fresh : ∀ v ∈ D, g.values.size ≤ (m'.lookup v).idx
  range : ∀ v ∈ D, (m'.lookup v).idx < g'.values.size
  inj : ∀ u ∈ D, ∀ v ∈ D, m'.lookup u = m'.lookup v → u = v
  types : ∀ v ∈ D, g'.ty (m'.lookup v) = g.ty v

/-- Values are mapped to new ones together. -/
theorem renames_insertAll {g' : Graph} {n : Nat} (h : m.insertAll src (g.nextValues n) = .ok m')
    (hnodup : src.Nodup) (hsize : g'.values.size = g.values.size + n)
    (htys : (g.nextValues n).map g'.ty = src.map g.ty) :
    Renames src m m' g g' := by
  obtain ⟨hnew, hold, -⟩ := insertAll_lookup h hnodup
  have hmem {v : ValueId} (hv : v ∈ src) : m'.lookup v ∈ g.nextValues n := hnew ▸ mem_map_of_mem hv
  refine
    { same := hold
      fresh := fun v hv => ((mem_nextValues g).1 (hmem hv)).1
      range := fun v hv => hsize ▸ ((mem_nextValues g).1 (hmem hv)).2
      inj := fun u hu v hv heq => inj_on_of_nodup_map (hnew ▸ nextValues_nodup _ _) hu hv heq
      types := ?_ }
  rw [← hnew, map_map] at htys
  exact map_inj_left.1 htys

/-- Some values get new names, and then others. -/
theorem Renames.append {D D' E : List ValueId} {m₁ m₂ : Mapping} {g₁ g₂ : Graph}
    (h : Renames D m m₁ g g₁) (h' : Renames D' m₁ m₂ g₁ g₂) (hle : g.values.size ≤ g₁.values.size)
    (hle' : g₁.values.size ≤ g₂.values.size) (hty : ∀ v ∈ D', g₁.ty v = g.ty v)
    (hty' : ∀ v, v.idx < g₁.values.size → g₂.ty v = g₁.ty v) (hD : ∀ v ∈ D, v ∉ D')
    (hE : ∀ v, v ∈ E ↔ v ∈ D ∨ v ∈ D') : Renames E m m₂ g g₂ := by
  have hkeep {v : ValueId} (hv : v ∈ D) : m₂.lookup v = m₁.lookup v := h'.same v (hD v hv)
  have hlow {v : ValueId} (hv : v ∈ D) : (m₂.lookup v).idx < g₁.values.size :=
    hkeep hv ▸ h.range v hv
  refine ⟨fun v hv => ?_, fun v hv => ?_, fun v hv => ?_, fun u hu v hv heq => ?_, fun v hv => ?_⟩
  · rw [hE, not_or] at hv
    rw [h'.same v hv.2, h.same v hv.1]
  · rcases (hE v).1 hv with hv | hv
    · exact hkeep hv ▸ h.fresh v hv
    · exact Nat.le_trans hle (h'.fresh v hv)
  · rcases (hE v).1 hv with hv | hv
    · exact Nat.lt_of_lt_of_le (hlow hv) hle'
    · exact h'.range v hv
  · rcases (hE u).1 hu with hu | hu <;> rcases (hE v).1 hv with hv | hv
    · rw [hkeep hu, hkeep hv] at heq
      exact h.inj u hu v hv heq
    · exact absurd (h'.fresh v hv) (Nat.not_le.2 (heq ▸ hlow hu))
    · exact absurd (h'.fresh u hu) (Nat.not_le.2 (heq ▸ hlow hv))
    · exact h'.inj u hu v hv heq
  · rcases (hE v).1 hv with hv | hv
    · rw [hty' _ (hlow hv), hkeep hv]
      exact h.types v hv
    · rw [h'.types v hv, hty v hv]

end Mapping

/-! ## 2. Completing and placing a copy -/

section Graphs

variable {g : Graph} {ks : List Node} {i : OpId}

/-- Placing an operation changes no tree that it is not in. -/
theorem held_put {b : BlockId} {ops : List OpId} (hks : Held g ks)
    (hb : ∀ k ∈ subsAll ks, k.body ≠ some b) (hi : ∀ k ∈ subsAll ks, ∀ l ∈ k.nodes, l.id ≠ i) :
    Held (g.put b ops i) ks := by
  intro k hk
  have hx := hks k hk
  have hblock {c : BlockId} (hc : k.body = some c) : (g.put b ops i).block c = g.block c := by
    rw [block_put, if_neg]
    rintro ⟨rfl, -⟩
    exact hb k hk hc
  have hop {j : OpId} : ∃ p, (g.put b ops i).op j = { g.op j with parent := p } := by
    rw [op_put]
    split
    · exact ⟨_, rfl⟩
    · exact ⟨_, rfl⟩
  obtain ⟨p, hp⟩ := @hop k.id
  refine ⟨?_, ?_, ?_, ?_, hx.tys, ?_, ?_, hx.used, ?_, ?_, hx.noBody, ?_⟩
  · rw [Graph.kind, hp]
    exact hx.kind
  · rw [hp]
    exact hx.operands
  · rw [hp]
    exact hx.results
  · rw [hp]
    exact hx.attr
  · rw [hp]
    exact hx.body
  · rw [hp]
    exact hx.present
  · intro c hc
    rw [hblock hc]
    exact hx.bodyArgs c hc
  · intro c hc
    rw [hblock hc]
    exact hx.bodyOps c hc
  · intro l hl
    rw [op_put, if_neg fun h => hi k hk l hl h.1.symm]
    exact hx.placed l hl

/-- Completing a reserved operation makes it a node over the trees of its body. -/
theorem held_complete (hg : Sane g) (hi : i.idx < g.ops.size) {kind : Kind} {attr : Attr}
    (hop : g.op i = ⟨kind, [], [], attr, none, none, false⟩) {operands : List ValueId}
    (hin : ∀ v ∈ operands, v.idx < g.values.size) (tys : List Ty) {body : Option BlockId}
    {as : List ValueId} (hks : Held g ks) (hne : ∀ k ∈ subsAll ks, k.id ≠ i)
    (hbody : ∀ c, body = some c → (g.block c).args = as ∧ (g.block c).ops = ks.map Node.id ∧
      ∀ k ∈ ks, (g.op k.id).parent = some c)
    (hnone : body = none → as = [] ∧ ks = []) :
    Held (g.complete i operands tys body)
      [.mk i ⟨kind, operands, g.nextValues tys.length, tys, attr⟩ body as ks] := by
  have hops {j : OpId} (hj : j ≠ i) : (g.complete i operands tys body).op j = g.op j := by
    rw [op_complete hi, if_neg fun h => hj h.symm]
  have hself : (g.complete i operands tys body).op i =
      ⟨kind, operands, g.nextValues tys.length, attr, body, none, false⟩ := by
    rw [op_complete hi, if_pos rfl, hop]
  have hblock (c : BlockId) : ((g.complete i operands tys body).block c).args = (g.block c).args ∧
      ((g.complete i operands tys body).block c).ops = (g.block c).ops := by
    rw [block_complete]
    split <;> exact ⟨rfl, rfl⟩
  have hvalue {v : ValueId} (hv : v.idx < g.values.size) :=
    g.value_complete_old i operands body tys hv
  refine held_single.2 ⟨?_, fun k hk => ?_⟩
  · refine ⟨?_, ?_, ?_, ?_, ?_, ?_, ?_, ?_, ?_, ?_, hnone, ?_⟩ <;>
      simp only [id_mk, head_mk, body_mk, Graph.kind, hself]
    · exact (g.tys_complete i operands body tys).symm
    · intro k v hv
      rw [hvalue (hin v (mem_of_getElem? hv))]
      exact mem_append_right _ (mem_usesOf.2 ⟨rfl, Nat.zero_le _, hv⟩)
    · exact fun c hc => (hblock c).1.trans (hbody c hc).1
    · exact fun c hc => (hblock c).2.trans (hbody c hc).2.1
    · intro k hk
      rw [hops (hne k (mem_subsAll_of_mem hk))]
      cases hc : body with
      | none =>
        rw [(hnone hc).2] at hk
        cases hk
      | some c => exact (hbody c hc).2.2 k hk
  · rw [nodes_mk] at hk
    refine (hks k hk).congr (hops (hne k hk)) (fun c _ => (hblock c).1) (fun c _ => (hblock c).2)
      (fun v hv => ?_) (fun j v hv hu => ?_) fun l hl => ?_
    · rw [Graph.ty, hvalue (owner_of_mem_results hg ((hks k hk).results ▸ hv)).1]
      rfl
    · rw [hvalue (Graph.lt_of_use hu)]
      exact mem_append_left _ hu
    · rw [hops (hne l (nodes_mem_subsAll hk hl))]

end Graphs

/-! ## 3. Duplicates of trees -/

/-- Trees of a graph that can be copied: `V` is visible around them, and a mapping gives what is
visible names of the graph, of the same types. -/
structure Source (V : List ValueId) (ns : List Node) (m : Mapping) (g : Graph) : Prop where
  sane : Sane g
  held : Held g ns
  lt : ∀ n ∈ ns, n.id.idx < g.ops.size
  inScope : ScopedAll V ns
  defsNodup : (defs ns).Nodup
  apart : ∀ v ∈ V, v ∉ defs ns
  idsNodup : (ids ns).Nodup
  visible : ∀ v ∈ V, v.idx < g.values.size
  range : ∀ v ∈ V, (m.lookup v).idx < g.values.size
  types : ∀ v ∈ V, g.ty (m.lookup v) = g.ty v

/-- What has been given new names is seen too. -/
theorem Source.seen {V X D : List ValueId} {ns : List Node} {m m' : Mapping} {g g' : Graph}
    {b : Option BlockId} (hs : Source V ns m g) (h : Mapping.Renames D m m' g g')
    (hgrow : Extends g g' b) (hX : ∀ v ∈ X, v ∈ D ∧ v.idx < g.values.size) (hD : ∀ v ∈ V, v ∉ D)
    (v : ValueId) (hv : v ∈ X ++ V) :
    v.idx < g'.values.size ∧ (m'.lookup v).idx < g'.values.size ∧
    g'.ty (m'.lookup v) = g'.ty v := by
  rcases mem_append.1 hv with hv | hv
  · obtain ⟨hd, hlt⟩ := hX v hv
    exact ⟨Nat.lt_of_lt_of_le hlt hgrow.valuesLe, h.range v hd,
      (h.types v hd).trans (hgrow.ty v hlt).symm⟩
  · rw [h.same v (hD v hv), hgrow.ty _ (hs.range v hv), hgrow.ty v (hs.visible v hv)]
    exact ⟨Nat.lt_of_lt_of_le (hs.visible v hv) hgrow.valuesLe,
      Nat.lt_of_lt_of_le (hs.range v hv) hgrow.valuesLe, hs.types v hv⟩

/-- The trees `ns'` are copies of the trees `ns`. -/
structure Copied (ns ns' : List Node) (m m' : Mapping) (e e' : Editor) (b : Option BlockId) :
    Prop extends Mapping.Renames (defs ns) m m' e.graph e'.graph where
  grows : Extends e.graph e'.graph b
  sane : Sane e'.graph
  only : e' = Edit.onGraph e e'.graph
  held : Held e'.graph ns'
  owns : ∀ n ∈ ns', e'.graph.OwnsBody n.id
  lt : ∀ n ∈ ns', n.id.idx < e'.graph.ops.size
  opsNew : ∀ k ∈ subsAll ns', e.graph.ops.size ≤ k.id.idx
  maps : MapsAll m'.lookup ns ns'
  ops : (ids ns).map m'.lookupOp = (ids ns').map some
  opsSame : ∀ j, j ∉ ids ns → m'.lookupOp j = m.lookupOp j
  covers : ∀ i : OpId, e.graph.ops.size ≤ i.idx → i.idx < e'.graph.ops.size → i ∈ ids ns'

section Duplicates

variable {V : List ValueId} {ns ns' ms ms' : List Node} {m m₁ m₂ : Mapping} {e e₁ e₂ : Editor}
  {b : Option BlockId}

section

variable (h : Copied ns ns' m m₁ e e₁ b)

include h

theorem Copied.point : e₁.point = e.point := by
  rw [h.only]
  rfl

/-- No block that was there is the body of a copy. -/
theorem Copied.body_ne (hg : Sane e.graph) {c : BlockId}
    (hc : c.idx < e.graph.blocks.size) {k : Node} (hk : k ∈ subsAll ns') : k.body ≠ some c := by
  intro hb
  have howner := h.held.owns h.sane h.owns hk c ((h.held k hk).body.trans hb)
  rw [h.grows.parentOp c hc] at howner
  exact Nat.not_lt.2 (h.opsNew k hk) (hg.owner c k.id howner)

end

/-- Nothing has been copied. -/
theorem Copied.refl (hg : Sane e.graph) (m : Mapping) (b : Option BlockId) :
    Copied [] [] m m e e b where
  same := fun _ _ => rfl
  fresh := by simp
  range := by simp
  inj := by simp
  types := by simp
  grows := .refl _ _
  sane := hg
  only := rfl
  held := held_nil _
  owns := by simp
  lt := by simp
  opsNew := by simp
  maps := mapsAll_nil.2 rfl
  ops := by simp [ids]
  opsSame := fun _ _ => rfl
  covers := fun _ h h' => absurd h' (Nat.not_lt.2 h)

section

variable (hs : Source V (ns ++ ms) m e.graph)

include hs

/-- A part of what can be copied can be copied. -/
theorem Source.part : Source V ns m e.graph where
  sane := hs.sane
  held := (held_append.1 hs.held).1
  lt n hn := hs.lt n (mem_append_left _ hn)
  inScope := (scopedAll_append.1 hs.inScope).1
  defsNodup := (nodup_append.1 (defs_append ns ms ▸ hs.defsNodup)).1
  apart v hv hd := hs.apart v hv (defs_append ns ms ▸ mem_append_left _ hd)
  idsNodup := (nodup_append.1 (ids_append ns ms ▸ hs.idsNodup)).1
  visible := hs.visible
  range := hs.range
  types := hs.types

/-- What is left to copy can be copied after a part of it. -/
theorem Source.rest (h : Copied ns ns' m m₁ e e₁ b)
    (hb : ∀ c, b = some c → ∀ k ∈ subsAll ms, k.body ≠ some c) :
    Source (outs ns ++ V) ms m₁ e₁.graph := by
  have hheld := held_append.1 hs.held
  have hnodup := nodup_append.1 (defs_append ns ms ▸ hs.defsNodup)
  have hids := nodup_append.1 (ids_append ns ms ▸ hs.idsNodup)
  have houts : ∀ v ∈ outs ns, v ∈ defs ns := fun v hv => outs_subset_defs ns hv
  have hV : ∀ v ∈ V, v ∉ defs ns ∧ v ∉ defs ms := fun v hv => by
    have := hs.apart v hv
    rw [defs_append, mem_append, not_or] at this
    exact this
  have hseen := hs.seen h.toRenames h.grows (X := outs ns)
    (fun v hv => ⟨houts v hv, hheld.1.defs_lt hs.sane v (houts v hv)⟩) fun v hv => (hV v hv).1
  refine
    { sane := h.sane
      held := ?_
      lt := ?_
      inScope := (scopedAll_append.1 hs.inScope).2
      defsNodup := hnodup.2.1
      apart := ?_
      idsNodup := hids.2.1
      visible := fun v hv => (hseen v hv).1
      range := fun v hv => (hseen v hv).2.1
      types := fun v hv => (hseen v hv).2.2 }
  · exact h.grows.held hs.sane hheld.2 (fun n hn => hs.lt n (mem_append_right _ hn))
      fun k hk c hc heq => hb c heq.symm k hk hc
  · exact fun n hn =>
      Nat.lt_of_lt_of_le (hs.lt n (mem_append_right _ hn)) h.grows.opsLe
  · intro v hv hd
    rcases mem_append.1 hv with hv | hv
    · exact hnodup.2.2 v (houts v hv) v hd rfl
    · exact (hV v hv).2 hd

/-- Duplicates that follow one another. -/
theorem Copied.trans (hb : ∀ c, b = some c → c.idx < e.graph.blocks.size)
    (h : Copied ns ns' m m₁ e e₁ b) (h' : Copied ms ms' m₁ m₂ e₁ e₂ b) :
    Copied (ns ++ ms) (ns' ++ ms') m m₂ e e₂ b := by
  have hnodup := nodup_append.1 (defs_append ns ms ▸ hs.defsNodup)
  have hids := nodup_append.1 (ids_append ns ms ▸ hs.idsNodup)
  have hren : Mapping.Renames (defs (ns ++ ms)) m m₂ e.graph e₂.graph :=
    h.toRenames.append h'.toRenames h.grows.valuesLe h'.grows.valuesLe
      (fun v hv => h.grows.ty v ((held_append.1 hs.held).2.defs_lt hs.sane v hv)) h'.grows.ty
      (fun v hv hd => hnodup.2.2 v hv v hd rfl) fun v => by rw [defs_append, mem_append]
  refine
    { toRenames := hren
      grows := h.grows.trans h'.grows
      sane := h'.sane
      only := h'.only.trans (by rw [h.only]; rfl)
      held := ?_
      owns := ?_
      lt := ?_
      opsNew := ?_
      maps := ?_
      ops := ?_
      opsSame := ?_
      covers := ?_ }
  · exact held_append.2 ⟨h'.grows.held h.sane h.held h.lt
      fun k hk c hc heq => h.body_ne hs.sane (hb c heq.symm) hk hc, h'.held⟩
  · intro n hn
    rcases mem_append.1 hn with hn | hn
    · intro c hc
      rw [h'.grows.op _ (h.lt n hn)] at hc
      rw [h'.grows.parentOp c (h.sane.body _ c hc)]
      exact h.owns n hn c hc
    · exact h'.owns n hn
  · intro n hn
    rcases mem_append.1 hn with hn | hn
    · exact Nat.lt_of_lt_of_le (h.lt n hn) h'.grows.opsLe
    · exact h'.lt n hn
  · intro k hk
    rcases mem_append.1 (subsAll_append ns' ms' ▸ hk) with hk | hk
    · exact h.opsNew k hk
    · exact Nat.le_trans h.grows.opsLe (h'.opsNew k hk)
  · refine mapsAll_append.2 ⟨ns', ms', rfl, h.maps.congr fun k hk v hv => ?_, h'.maps⟩
    refine (h'.same v fun hd => ?_).symm
    -- a value of the first part is visible around both, or defined in the first part
    have hnames : v ∈ V ++ defs ns := by
      refine names_visible (scopedAll_append.1 hs.inScope).1 k hk v ?_
      simp only [names, own, mem_append] at hv ⊢
      rcases hv with hv | hv | hv
      · exact .inl (.inl (.inl hv))
      · exact .inl (.inl (.inr hv))
      · exact .inl (.inr hv)
    rcases mem_append.1 hnames with hv | hv
    · exact hs.apart v hv (defs_append ns ms ▸ mem_append_right _ hd)
    · exact hnodup.2.2 v hv v hd rfl
  · rw [ids_append, ids_append, map_append, map_append, ← h.ops, ← h'.ops]
    congr 1
    refine map_congr_left fun j hj => h'.opsSame j fun hd => ?_
    exact hids.2.2 j hj j hd rfl
  · intro j hj
    rw [ids_append, mem_append, not_or] at hj
    rw [h'.opsSame j hj.2, h.opsSame j hj.1]
  · intro i hi hi'
    rw [ids_append, mem_append]
    by_cases hlt : i.idx < e₁.graph.ops.size
    · exact .inl (h.covers i hi hlt)
    · exact .inr (h'.covers i (Nat.le_of_not_lt hlt) hi')

end

/-- The results of a node are apart from what is defined in its body. -/
theorem Source.results_apart {n : Node} (hs : Source V [n] m e.graph) :
    n.head.results.Nodup ∧ ∀ v ∈ n.args ++ defs n.nodes, v ∉ n.head.results := by
  have hnodup := hs.defsNodup
  rw [defs_single, append_assoc] at hnodup
  obtain ⟨hresults, -, hdisj⟩ := nodup_append.1 hnodup
  exact ⟨hresults, fun v hv hr => hdisj v hr v hv rfl⟩

/-- What is visible around a node is defined neither by it nor in its body. -/
theorem Source.visible_apart {n : Node} (hs : Source V [n] m e.graph) {v : ValueId} (hv : v ∈ V) :
    v ∉ n.head.results ∧ v ∉ n.args ++ defs n.nodes := by
  have hapart := hs.apart v hv
  rwa [defs_single, append_assoc, mem_append, not_or] at hapart

/-- A copy is placed in a block. -/
theorem Copied.put {n n' : Node} (hg : Sane e.graph) (h : Copied [n] [n'] m m₁ e e₁ none)
    {c : BlockId} (hc : c.idx < e.graph.blocks.size) {pre post : List OpId}
    (hops : (e₁.graph.block c).ops = pre ++ post) (hloose : (e₁.graph.op n'.id).parent = none) :
    Copied [n] [n'] m m₁ e (Edit.onGraph e₁ (e₁.graph.put c (pre ++ n'.id :: post) n'.id))
      (some c) := by
  have hlt := h.lt n' mem_cons_self
  have hnew := h.opsNew n' (mem_subsAll_of_mem mem_cons_self)
  refine
    { toRenames := ⟨h.same, h.fresh, h.range, h.inj, h.types⟩
      grows := (h.grows.weaken _).put hnew _
      sane := h.sane.put hlt hloose (h.owns n' mem_cons_self) hops
      only := by rw [h.only]; rfl
      held := ?_
      owns := ?_
      lt := ?_
      opsNew := h.opsNew
      maps := h.maps
      ops := h.ops
      opsSame := h.opsSame
      covers := ?_ }
  · refine held_put h.held (fun k hk => h.body_ne hg hc hk) fun k hk l hl heq => ?_
    refine h.held.notMem_nodes (heq ▸ mem_map_of_mem ?_)
    rw [subsAll_cons, subsAll_nil, append_nil, subs_eq, mem_cons] at hk
    rcases hk with rfl | hk
    · exact mem_subsAll_of_mem hl
    · exact nodes_mem_subsAll hk hl
  · intro k hk d hd
    rw [Edit.onGraph, op_put] at hd
    rw [Edit.onGraph, block_put]
    have hbody : (e₁.graph.op k.id).body = some d := by
      split at hd <;> exact hd
    have hown := h.owns k hk d hbody
    split <;> exact hown
  · intro k hk
    rw [Edit.onGraph, opsSize_put]
    exact h.lt k hk
  · intro i hi hi'
    rw [Edit.onGraph, opsSize_put] at hi'
    exact h.covers i hi hi'

end Duplicates

namespace Edit

variable {V as' : List ValueId} {m m' m₂ : Mapping} {e e' e₂ : Editor} {n : Node}
  {body' : Option BlockId} {ks' : List Node}

/-- A computation copies a tree of the graph, outside of every block. -/
def Duplicates (act : OpId → Mapping → Edit (OpId × Mapping)) (n : Node) : Prop :=
  ∀ V m e, Source V [n] m e.graph → ∃ n' m' e', act n.id m e = .ok (n'.id, m') e' ∧
    (e'.graph.op n'.id).parent = none ∧ Copied [n] [n'] m m' e e' none

theorem copyChildren_ok {act : OpId → Mapping → Edit (OpId × Mapping)} {c : BlockId}
    {ns : List Node} (ih : ∀ n ∈ ns, Duplicates act n) (hs : Source V ns m e.graph)
    (hc : c.idx < e.graph.blocks.size) (hne : ∀ k ∈ subsAll ns, k.body ≠ some c) :
    ∃ ns' m' e', ((ns.map Node.id).foldlM (fun m j => do
      let (k, m) ← act j m
      append c k
      return m) m : Edit Mapping) e = .ok m' e' ∧ Copied ns ns' m m' e e' (some c) ∧
      (e'.graph.block c).ops = (e.graph.block c).ops ++ ns'.map Node.id ∧
      ∀ n ∈ ns', (e'.graph.op n.id).parent = some c := by
  induction ns generalizing V m e with
  | nil => exact ⟨[], m, e, rfl, .refl hs.sane _ _, by simp, by simp⟩
  | cons n ns tail =>
    obtain ⟨n', m₂, e₂, hact, hloose, hcopy⟩ := ih n mem_cons_self V m e hs.part
    have hput := hcopy.put hs.sane hc (append_nil _).symm hloose
    have hblock : (e₂.graph.block c).ops = (e.graph.block c).ops := by
      rw [hcopy.grows.block c hc (by simp)]
    have hlt : c.idx < e₂.graph.blocks.size := Nat.lt_of_lt_of_le hc hcopy.grows.blocksLe
    obtain ⟨ns', m', e', hfold, hrest, hops, hplaced⟩ :=
      tail (fun k hk => ih k (mem_cons_of_mem _ hk)) (hs.rest hput fun d hd k hk => by
        cases hd
        exact hne k (by simp [hk]))
      (Nat.lt_of_lt_of_le hc hput.grows.blocksLe) (fun k hk => hne k (by simp [hk]))
    refine ⟨n' :: ns', m', e', ?_, ?_, ?_, ?_⟩
    · rw [map_cons, foldlM_cons]
      exact state_bind_ok m₂
        (state_bind_ok _ hact (state_bind_ok () (append_ok.2 ⟨hloose, rfl⟩) rfl)) hfold
    · refine hput.trans hs (fun d hd => ?_) hrest
      cases hd
      exact hc
    · rw [hops, onGraph, block_put, if_pos ⟨rfl, hlt⟩, hblock]
      simp
    · intro k hk
      rcases mem_cons.1 hk with rfl | hk
      · rw [hrest.grows.op _ (hput.lt _ mem_cons_self), onGraph, op_put,
          if_pos ⟨rfl, hcopy.lt _ mem_cons_self⟩]
      · exact hplaced k hk

/-- The state in which the name of a copy is reserved and its body has been copied, to a block with
the arguments `as'` and the trees `ks'`. -/
structure BodyCopied (n : Node) (body' : Option BlockId) (as' : List ValueId) (ks' : List Node)
    (m m' : Mapping) (e e' : Editor) : Prop
    extends Mapping.Renames (n.args ++ defs n.nodes) m m' e.graph e'.graph where
  grows : Extends e.graph e'.graph none
  sane : Sane e'.graph
  only : e' = Edit.onGraph e e'.graph
  reserved : e'.graph.op e.graph.nextOp = ⟨n.head.kind, [], [], n.head.attr, none, none, false⟩
  lt : e.graph.nextOp.idx < e'.graph.ops.size
  held : Held e'.graph ks'
  opsNew : ∀ k ∈ subsAll ks', e.graph.ops.size < k.id.idx
  hasBody : body'.isSome = n.body.isSome
  bodyNew : ∀ c, body' = some c → e.graph.blocks.size ≤ c.idx ∧ c.idx < e'.graph.blocks.size ∧
    (e'.graph.block c).parentOp = none
  body : ∀ c, body' = some c → (e'.graph.block c).args = as' ∧
    (e'.graph.block c).ops = ks'.map Node.id ∧ ∀ k ∈ ks', (e'.graph.op k.id).parent = some c
  noBody : body' = none → as' = [] ∧ ks' = []
  args : as' = n.args.map m'.lookup
  maps : MapsAll m'.lookup n.nodes ks'
  ops : (ids n.nodes).map m'.lookupOp = (ids ks').map some
  opsSame : ∀ j, j ∉ ids n.nodes → m'.lookupOp j = m.lookupOp j
  covers : ∀ i : OpId, e.graph.ops.size < i.idx → i.idx < e'.graph.ops.size → i ∈ ids ks'

theorem lookupOp_insert (m : Mapping) (i k j : OpId) :
    ({ m with ops := m.ops.insert i.idx k } : Mapping).lookupOp j =
      if i = j then some k else m.lookupOp j := by
  have hiff : compare i.idx j.idx = .eq ↔ i = j := by
    cases i
    cases j
    simp
  simp only [Mapping.lookupOp, Std.TreeMap.getElem?_insert, hiff]

section Complete

variable (hs : Source V [n] m e.graph) {m₃ : Mapping} (h : BodyCopied n body' as' ks' m m₂ e e₂)
  (hm : m₂.insertAll n.head.results (e₂.graph.nextValues n.head.tys.length) = .ok m₃)

include hs h hm

/-- Once the results have their names, all that the node defines has been renamed. -/
theorem BodyCopied.renames : Mapping.Renames (defs [n]) m m₃ e.graph
    (e₂.graph.complete e.graph.nextOp (n.head.operands.map m.lookup) n.head.tys body') := by
  have hhere := hs.held.here mem_cons_self
  obtain ⟨hresults, hdisj⟩ := hs.results_apart
  have hkeep : ∀ v ∈ n.head.results, e₂.graph.ty v = e.graph.ty v := fun v hv =>
    h.grows.ty v (owner_of_mem_results hs.sane (hhere.results ▸ hv)).1
  refine h.toRenames.append (Mapping.renames_insertAll hm hresults valuesSize_complete ?_)
    h.grows.valuesLe (valuesSize_complete ▸ Nat.le_add_right _ _) hkeep
    (fun v hv => by rw [Graph.ty, value_complete_old _ _ _ _ _ hv]; rfl) hdisj
    fun v => by rw [defs_single, append_assoc, mem_append, or_comm]
  rw [tys_complete, hhere.tys]
  exact map_congr_left fun v hv => (hkeep v hv).symm

/-- The copy is the node with the new names: the names that its body got are not given again. -/
theorem BodyCopied.maps_complete : Maps m₃.lookup n (.mk e.graph.nextOp
    ⟨n.head.kind, n.head.operands.map m.lookup, e₂.graph.nextValues n.head.tys.length, n.head.tys,
      n.head.attr⟩ body' as' ks') := by
  obtain ⟨hresults, hdisj⟩ := hs.results_apart
  obtain ⟨hscopeOps, hscopeIn⟩ := scoped_iff.1 (scopedAll_cons.1 hs.inScope).1
  obtain ⟨hnew, hold, -⟩ := Mapping.insertAll_lookup hm hresults
  refine maps_iff.2 ⟨?_, h.hasBody, ?_, ?_⟩
  · have hoperands : n.head.operands.map m.lookup = n.head.operands.map m₃.lookup := by
      refine map_congr_left fun v hv => ?_
      obtain ⟨hr, hd⟩ := hs.visible_apart (hscopeOps v hv)
      rw [hold v hr, h.same v hd]
    simp only [head_mk, Head.rename, Head.mk.injEq, true_and, and_true]
    exact ⟨hoperands, hnew.symm⟩
  · rw [args_mk, h.args]
    exact map_congr_left fun v hv => (hold v (hdisj v (mem_append_left _ hv))).symm
  · refine h.maps.congr fun k hk v hv => (hold v fun hr => ?_).symm
    have hnames : v ∈ n.args ++ V ++ defs n.nodes := by
      refine names_visible hscopeIn k hk v ?_
      simp only [names, own] at hv ⊢
      grind
    rcases mem_append.1 hnames with hv | hv
    · rcases mem_append.1 hv with hv | hv
      · exact hdisj v (mem_append_left _ hv) hr
      · exact (hs.visible_apart hv).1 hr
    · exact hdisj v (mem_append_right _ hv) hr

/-- A copy is complete with its operands, its results, and the body that has been copied. -/
theorem BodyCopied.complete :
    Copied [n] [.mk e.graph.nextOp ⟨n.head.kind, n.head.operands.map m.lookup,
        e₂.graph.nextValues n.head.tys.length, n.head.tys, n.head.attr⟩ body' as' ks'] m
      { m₃ with ops := m₃.ops.insert n.id.idx e.graph.nextOp } e
      (onGraph e₂ (e₂.graph.complete e.graph.nextOp (n.head.operands.map m.lookup)
        n.head.tys body'))
      none := by
  have hids : ids [n] = n.id :: ids n.nodes := by simp [ids, subs_eq]
  have hids' : ids [Node.mk e.graph.nextOp ⟨n.head.kind, n.head.operands.map m.lookup,
      e₂.graph.nextValues n.head.tys.length, n.head.tys, n.head.attr⟩ body' as' ks'] =
      e.graph.nextOp :: ids ks' := by simp [ids, subs_eq]
  have hidNodup := nodup_cons.1 (hids ▸ hs.idsNodup)
  have hopsOld := (Mapping.insertAll_lookup hm hs.results_apart.1).2.2
  have hren := h.renames hs hm
  have hmaps := h.maps_complete hs hm
  have hoperands : ∀ v ∈ n.head.operands.map m.lookup, v.idx < e₂.graph.values.size := by
    intro v hv
    obtain ⟨u, hu, rfl⟩ := mem_map.1 hv
    have hscope := (scoped_iff.1 (scopedAll_cons.1 hs.inScope).1).1 u hu
    exact Nat.lt_of_lt_of_le (hs.range u hscope) h.grows.valuesLe
  have hheld := held_complete h.sane h.lt h.reserved hoperands n.head.tys h.held
    (fun k hk heq => Nat.lt_irrefl _ (heq ▸ h.opsNew k hk)) h.body h.noBody
  have hopen : Sane.Reserved e₂.graph e.graph.nextOp :=
    ⟨h.lt, by rw [h.reserved], by rw [h.reserved]⟩
  refine
    { toRenames := ⟨hren.same, hren.fresh, hren.range, hren.inj, hren.types⟩
      grows := h.grows.complete (Nat.le_refl _) h.lt _ _ fun c hc => (h.bodyNew c hc).1
      sane := h.sane.complete hopen _ _ fun c hc => (h.bodyNew c hc).2
      only := by rw [h.only]; rfl
      held := hheld
      owns := ?_
      lt := ?_
      opsNew := ?_
      maps := mapsAll_cons.2 ⟨_, [], rfl, hmaps, mapsAll_nil.2 rfl⟩
      ops := ?_
      opsSame := ?_
      covers := ?_ }
  · intro k hk c hc
    obtain rfl := mem_singleton.1 hk
    rw [onGraph, id_mk, op_complete h.lt, if_pos rfl] at hc
    rw [onGraph, block_complete, if_pos ⟨hc, (h.bodyNew c hc).2.1⟩]
    rfl
  · intro k hk
    obtain rfl := mem_singleton.1 hk
    rw [onGraph, opsSize_complete]
    exact h.lt
  · intro k hk
    rw [subsAll_cons, subsAll_nil, append_nil, subs_eq, mem_cons] at hk
    rcases hk with rfl | hk
    · exact Nat.le_refl _
    · exact Nat.le_of_lt (h.opsNew k hk)
  · have hne {j : OpId} (hj : j ∈ ids n.nodes) : n.id ≠ j := fun heq => hidNodup.1 (heq ▸ hj)
    rw [hids, hids', map_cons, map_cons, lookupOp_insert, if_pos rfl, ← h.ops]
    congr 1
    refine map_congr_left fun j hj => ?_
    rw [lookupOp_insert, if_neg (hne hj), hopsOld]
  · intro j hj
    rw [hids, mem_cons, not_or] at hj
    rw [lookupOp_insert, if_neg fun heq => hj.1 heq.symm, hopsOld]
    exact h.opsSame j hj.2
  · intro i hi hi'
    rw [onGraph, opsSize_complete] at hi'
    rw [hids', mem_cons]
    rcases Nat.eq_or_lt_of_le hi with heq | hlt
    · exact .inl (congrArg OpId.mk heq.symm)
    · exact .inr (h.covers i hlt hi')

end Complete

/-- The name of a copy is reserved, and there is no body to copy. -/
theorem bodyCopied_leaf {i : OpId} {hd : Head} (hs : Source V [.mk i hd none [] []] m e.graph) :
    BodyCopied (.mk i hd none [] []) none [] [] m m e
      (onGraph e (e.graph.pushOp ⟨hd.kind, [], [], hd.attr, none, none, false⟩)) where
  grows := (Extends.refl _ _).pushOp _
  sane := hs.sane.reserve _ _
  only := rfl
  reserved := by simp [onGraph]
  lt := e.graph.nextOp_lt _
  held := held_nil _
  opsNew := by simp
  hasBody := rfl
  bodyNew _ h := (nomatch h)
  body _ h := (nomatch h)
  noBody _ := ⟨rfl, rfl⟩
  args := rfl
  maps := mapsAll_nil.2 rfl
  same _ _ := rfl
  fresh := by simp
  range := by simp
  inj := by simp
  types := by simp
  ops := by simp [ids]
  opsSame _ _ := rfl
  covers i hi hi' := by
    simp only [onGraph, opsSize_pushOp] at hi'
    omega

section Region

variable {i : OpId} {hd : Head} {c : BlockId} {as : List ValueId} {ks : List Node}

/-- The graph in which the name of a copy is reserved, and a block for its body is there. -/
def prepared (g : Graph) (hd : Head) (tys : List Ty) : Graph :=
  (g.pushOp ⟨hd.kind, [], [], hd.attr, none, none, false⟩).withBlock tys

theorem extends_prepared (g : Graph) (hd : Head) (tys : List Ty) :
    Extends g (prepared g hd tys) none :=
  ((Extends.refl _ _).pushOp _).withBlock _

theorem valuesSize_prepared (g : Graph) (hd : Head) (tys : List Ty) :
    (prepared g hd tys).values.size = g.values.size + tys.length := by
  rw [prepared, valuesSize_withBlock, values_pushOp]

variable {m₁ : Mapping} (hs : Source V [.mk i hd (some c) as ks] m e.graph)
  (hm : m.insertAll as (e.graph.nextValues as.length) = .ok m₁)

include hs

theorem source_args : (e.graph.block c).args = as := (hs.held.here mem_cons_self).bodyArgs c rfl

theorem source_args_nodup : as.Nodup := source_args hs ▸ args_nodup hs.sane c

include hm

/-- The arguments of the body have been mapped to those of the new block. -/
theorem renames_args :
    Mapping.Renames as m m₁ e.graph (prepared e.graph hd (as.map e.graph.ty)) := by
  have htys := (e.graph.pushOp ⟨hd.kind, [], [], hd.attr, none, none, false⟩).tys_withBlock
    (as.map e.graph.ty)
  have hsize := valuesSize_prepared e.graph hd (as.map e.graph.ty)
  rw [length_map] at htys hsize
  exact Mapping.renames_insertAll hm (source_args_nodup hs) hsize htys

/-- The trees of the body can be copied. -/
theorem source_body : Source (as ++ V) ks m₁ (prepared e.graph hd (as.map e.graph.ty)) := by
  have hhere := hs.held.here mem_cons_self
  have hdefs : defs [Node.mk i hd (some c) as ks] = hd.results ++ (as ++ defs ks) := by
    rw [defs_single, append_assoc]
    rfl
  have hids : ids [Node.mk i hd (some c) as ks] = i :: ids ks := by simp [ids, subs_eq]
  have hgrow := extends_prepared e.graph hd (as.map e.graph.ty)
  have hnodup := nodup_append.1 (nodup_append.1 (hdefs ▸ hs.defsNodup)).2.1
  have hkids : ∀ k ∈ ks, k.id.idx < e.graph.ops.size := fun k hk =>
    (hs.sane.parent c k.id (hhere.bodyOps c rfl ▸ mem_map_of_mem hk)).1
  have hV {v : ValueId} (hv : v ∈ V) : v ∉ as ∧ v ∉ defs ks := by
    have := hs.apart v hv
    rw [hdefs] at this
    simp only [mem_append, not_or] at this
    exact this.2
  have hseen := hs.seen (renames_args hs hm) hgrow (X := as)
    (fun v hv => ⟨hv, (owner_of_mem_args hs.sane ((source_args hs).symm ▸ hv)).1⟩)
      fun v hv => (hV hv).1
  have hheld : Held e.graph ks := (held_single.1 hs.held).2
  refine
    { sane := (hs.sane.reserve _ _).withBlock _
      held := hgrow.held hs.sane hheld hkids (by simp)
      lt := ?_
      inScope := (scoped_iff.1 (scopedAll_cons.1 hs.inScope).1).2
      defsNodup := hnodup.2.1
      apart := ?_
      idsNodup := (nodup_cons.1 (hids ▸ hs.idsNodup)).2
      visible := fun v hv => (hseen v hv).1
      range := fun v hv => (hseen v hv).2.1
      types := fun v hv => (hseen v hv).2.2 }
  · exact fun k hk => Nat.lt_of_lt_of_le (hkids k hk) hgrow.opsLe
  · intro v hv hd
    rcases mem_append.1 hv with hv | hv
    · exact hnodup.2.2 v hv v hd rfl
    · exact (hV hv).2 hd

/-- The name of a copy is reserved, and its body has been copied. -/
theorem bodyCopied_region {m₂ : Mapping} {e₃ : Editor} {ks' : List Node}
    (h : Copied ks ks' m₁ m₂ (onGraph e (prepared e.graph hd (as.map e.graph.ty))) e₃
      (some e.graph.nextBlock))
    (hops : (e₃.graph.block e.graph.nextBlock).ops = ks'.map Node.id)
    (hplaced : ∀ k ∈ ks', (e₃.graph.op k.id).parent = some e.graph.nextBlock) :
    BodyCopied (.mk i hd (some c) as ks) (some e.graph.nextBlock) (e.graph.nextValues as.length) ks'
      m m₂ e e₃ := by
  have hgrow := extends_prepared e.graph hd (as.map e.graph.ty)
  have hsrc := source_body hs hm
  have hlt : e.graph.nextBlock.idx < (prepared e.graph hd (as.map e.graph.ty)).blocks.size := by
    simp [prepared, nextBlock]
  have hblock : (prepared e.graph hd (as.map e.graph.ty)).block e.graph.nextBlock =
      ⟨e.graph.nextValues as.length, [], none, none⟩ := by
    rw [prepared, block_withBlock]
    exact (if_pos rfl).trans (by rw [length_map]; rfl)
  have hnext : e.graph.nextOp.idx < (prepared e.graph hd (as.map e.graph.ty)).ops.size := by
    simp [prepared, nextOp]
  have hapart : ∀ v ∈ as, v ∉ defs ks := fun v hv => hsrc.apart v (mem_append_left _ hv)
  obtain ⟨hnew, -, hopsOld⟩ := Mapping.insertAll_lookup hm (source_args_nodup hs)
  have hren : Mapping.Renames (as ++ defs ks) m m₂ e.graph e₃.graph :=
    (renames_args hs hm).append h.toRenames hgrow.valuesLe h.grows.valuesLe
      (fun v hv => hgrow.ty v ((held_single.1 hs.held).2.defs_lt hs.sane v hv)) h.grows.ty hapart
      fun _ => mem_append
  refine
    { toRenames := hren
      grows := hgrow.inside (Nat.le_refl _) h.grows
      sane := h.sane
      only := h.only
      reserved := ?_
      lt := Nat.lt_of_lt_of_le hnext h.grows.opsLe
      held := h.held
      opsNew := ?_
      hasBody := rfl
      bodyNew := ?_
      body := ?_
      noBody := fun h => absurd h (Option.some_ne_none _)
      args := ?_
      maps := h.maps
      ops := h.ops
      opsSame := ?_
      covers := ?_ }
  · rw [h.grows.op _ hnext, onGraph, prepared, op_withBlock, op_pushOp, if_pos rfl]
    rfl
  · intro k hk
    have := h.opsNew k hk
    simp only [onGraph, prepared, ops_withBlock, opsSize_pushOp] at this
    exact this
  · intro d hd
    cases hd
    refine ⟨Nat.le_refl _, Nat.lt_of_lt_of_le hlt h.grows.blocksLe, ?_⟩
    rw [h.grows.parentOp _ hlt, onGraph, hblock]
  · intro d hd
    cases hd
    refine ⟨?_, hops, hplaced⟩
    rw [h.grows.args _ hlt, onGraph, hblock]
  · rw [← hnew]
    exact map_congr_left fun v hv => (h.same v (hapart v hv)).symm
  · intro j hj
    rw [h.opsSame j hj, hopsOld]
  · intro i hi hi'
    refine h.covers i ?_ hi'
    simp only [onGraph, prepared, ops_withBlock, opsSize_pushOp]
    exact hi

end Region

theorem completeCopy_ok (hs : Source V [n] m e.graph) (hb : BodyCopied n body' as' ks' m m₂ e e₂) :
    ∃ n' m' e',
      completeCopy e.graph n.id e.graph.nextOp (n.head.operands.map m.lookup) body' m₂ e₂ =
        .ok (n'.id, m') e' ∧
      (e'.graph.op n'.id).parent = none ∧ Copied [n] [n'] m m' e e' none := by
  have hhere := hs.held.here mem_cons_self
  have hop : (e₂.graph.complete e.graph.nextOp (n.head.operands.map m.lookup) n.head.tys body').op
      e.graph.nextOp = _ := op_complete hb.lt e.graph.nextOp
  rw [if_pos rfl, hb.reserved] at hop
  have hlen : n.head.results.length = (e₂.graph.nextValues n.head.tys.length).length := by
    rw [hhere.tys]
    simp [nextValues]
  have hm := Mapping.insertAll_eq m₂ hlen
  refine ⟨_, _, _, ?_, ?_, hb.complete hs hm⟩
  · unfold completeCopy
    rw [hhere.results, ← hhere.tys]
    refine state_bind_ok () (completeOp_ok.2 ⟨fun c hc => (hb.bodyNew c hc).2.2, rfl⟩) ?_
    refine state_bind_ok _ rfl (state_bind_ok _ (lift_ok.2 ⟨?_, rfl⟩) rfl)
    exact (congrArg (fun x : Op => m₂.insertAll n.head.results x.results) hop).trans hm
  · rw [id_mk, onGraph, hop]

/-- **A copy of an operation is a tree that has what the source has, under new names.** -/
theorem copyWithin_duplicates (n : Node) (depth : Nat) (hdepth : n.depth ≤ depth) :
    Duplicates (copyWithin depth) n := by
  induction n using Node.induct generalizing depth with
  | mk i hd body as ks ih =>
    intro V m e hs
    have hhere := hs.held.here mem_cons_self
    have hkind : e.graph.kind i = hd.kind := hhere.kind
    have hattr : (e.graph.op i).attr = hd.attr := hhere.attr
    have hoperands : (e.graph.op i).operands = hd.operands := hhere.operands
    rw [depth_eq, nodes_mk] at hdepth
    obtain ⟨depth, rfl⟩ : ∃ k, depth = k + 1 := ⟨depth - 1, by omega⟩
    suffices h : ∃ n' m' e', _ from
      h.imp fun n' => Exists.imp fun m' => Exists.imp fun e' => And.imp_left fun h =>
        state_bind_ok _ rfl (state_bind_ok _ (reserveOp_eq ..) h)
    simp only [id_mk, hkind, hattr, hoperands]
    cases body with
    | none =>
      have hbody : (e.graph.op i).body = none := hhere.body
      obtain ⟨rfl, rfl⟩ : as = [] ∧ ks = [] := hhere.noBody rfl
      simp only [hbody]
      exact completeCopy_ok hs (bodyCopied_leaf hs)
    | some c =>
      have hbody : (e.graph.op i).body = some c := hhere.body
      have hargs : (e.graph.block c).args = as := hhere.bodyArgs c rfl
      have hops : (e.graph.block c).ops = ks.map Node.id := hhere.bodyOps c rfl
      have hnew : ((prepared e.graph hd (as.map e.graph.ty)).block e.graph.nextBlock).args =
          e.graph.nextValues as.length := by
        rw [prepared, block_withBlock]
        exact (congrArg Block.args (if_pos rfl)).trans (by rw [length_map]; rfl)
      have hm₁ := Mapping.insertAll_eq m
        (show as.length = (e.graph.nextValues as.length).length by simp [nextValues])
      have hlt : e.graph.nextBlock.idx <
          (prepared e.graph hd (as.map e.graph.ty)).blocks.size := by simp [prepared, nextBlock]
      have hempty : ((prepared e.graph hd (as.map e.graph.ty)).block e.graph.nextBlock).ops =
          [] := by
        rw [prepared, block_withBlock]
        exact congrArg Block.ops (if_pos rfl)
      have hne : ∀ l ∈ subsAll ks, l.body ≠ some e.graph.nextBlock := fun l hl hb => by
        have hl : l ∈ subsAll [Node.mk i hd (some c) as ks] := by simp [subs_eq, hl]
        exact Nat.lt_irrefl _ (hs.sane.body l.id _ ((hs.held l hl).body.trans hb))
      obtain ⟨ks', m₂, e₂, hfold, hkids, hops', hplaced⟩ := copyChildren_ok
        (fun k hk => ih k hk depth (Nat.le_trans (depth_le_of_mem hk) (by omega)))
        (e := onGraph e (prepared e.graph hd (as.map e.graph.ty))) (source_body hs hm₁) hlt hne
      rw [onGraph, hempty, nil_append] at hops'
      obtain ⟨n', m', e', hcomplete, hcopy⟩ :=
        completeCopy_ok hs (bodyCopied_region hs hm₁ hkids hops' hplaced)
      simp only [hbody, hargs, hops]
      refine ⟨n', m', e', state_bind_ok _ (newBlock_eq _) (state_bind_ok _ rfl ?_), hcopy⟩
      refine state_bind_ok _ (lift_ok.2 ⟨?_, rfl⟩) (state_bind_ok m₂ hfold hcomplete)
      exact (congrArg (m.insertAll as) hnew).trans hm₁

theorem copy_duplicates (n : Node) : Duplicates copy n := by
  intro V m e hs
  have hdepth := depthAll_le_size hs.idsNodup (hs.held.ids_lt hs.sane hs.lt)
  simp only [depthAll] at hdepth
  obtain ⟨n', m', e', h, hcopy⟩ := copyWithin_duplicates n (e.graph.ops.size + 1)
    (by omega) V m e hs
  exact ⟨n', m', e', state_bind_ok _ rfl h, hcopy⟩

/-! ## 4. Duplicates at the insertion point -/

variable {W : List ValueId} {b : BlockId} {pre post : List OpId}

variable {ns : List Node} (hs : Start W b pre post e)

include hs

/-- What is known of copies that have been placed. -/
theorem emitted_of_copied {ns' : List Node} (hsrc : Source V ns m e.graph)
    (hrules : ∀ k ∈ subsAll ns, Rules e.graph k) (hW : ∀ v ∈ V, m.lookup v ∈ W)
    (h : Copied ns ns' m m' e e' (some b)) (hat : AtPoint e' b (pre ++ ns'.map Node.id) post)
    (hplaced : ∀ n ∈ ns', (e'.graph.op n.id).parent = some b) :
    Emitted Rules W b pre post e e' ns' := by
  have hseen {v : ValueId} (hv : v ∈ V) : m'.lookup v = m.lookup v := h.same v (hsrc.apart v hv)
  refine
    { grows := h.grows
      next := ⟨h.sane, hat, fun v hv => ?_⟩
      point := h.point
      held := h.held
      placed := hplaced
      opsNew := h.opsNew
      covers := h.covers
      defsNew := ?_
      inScope := ?_
      every := ?_ }
  · rcases mem_append.1 hv with hv | hv
    · exact h.held.defs_lt h.sane v (outs_subset_defs ns' hv)
    · exact Nat.lt_of_lt_of_le (hs.visible v hv) h.grows.valuesLe
  · intro v hv
    rw [h.maps.defs] at hv
    obtain ⟨u, hu, rfl⟩ := mem_map.1 hv
    exact h.fresh u hu
  · refine (h.maps.scoped hsrc.inScope).mono fun v hv => ?_
    obtain ⟨u, hu, rfl⟩ := mem_map.1 hv
    rw [hseen hu]
    exact hW u hu
  · intro k' hk'
    obtain ⟨k, hk, hkk⟩ := exists_of_forall₂_mem h.maps.subsAll hk'
    refine natural_rules hkk.like (fun v hv => ?_) (hrules k hk)
    rcases mem_append.1 (names_visible hsrc.inScope k hk v hv) with hv | hv
    · rw [hseen hv, h.grows.ty _ (hsrc.range v hv)]
      exact hsrc.types v hv
    · exact h.types v hv

theorem clone_emits (hsrc : Source V [n] m e.graph) (hrules : ∀ k ∈ subsAll [n], Rules e.graph k)
    (hW : ∀ v ∈ V, m.lookup v ∈ W) :
    Emits W b pre post e (do return (← clone n.id m).2) fun m' e' ns' =>
      Copied [n] ns' m m' e e' (some b) := by
  obtain ⟨n', m₁, e₁, hact, hloose, hcopy⟩ := copy_duplicates n V m e hsrc
  have hlt : b.idx < e₁.graph.blocks.size := Nat.lt_of_lt_of_le hs.place.lt hcopy.grows.blocksLe
  have hops : (e₁.graph.block b).ops = pre ++ post := by
    rw [hcopy.grows.block b hs.place.lt (by simp)]
    exact hs.place.ops
  have hat : AtPoint e₁ b pre post :=
    ⟨hlt, hcopy.point ▸ hs.place.block, hops, hcopy.point ▸ hs.place.none,
      hcopy.point ▸ hs.place.some⟩
  have hput := hcopy.put hs.sane hs.place.lt hops hloose
  have hclone : clone n.id m e = .ok (n'.id, m₁) _ := state_bind_ok _ hact
    (state_bind_ok () ((insert_ok hat).2 ⟨hloose, rfl⟩) rfl)
  refine ⟨m₁, _, [n'], state_bind_ok _ hclone rfl,
    emitted_of_copied hs hsrc hrules hW hput (hat.push ?_ ?_ fun hmem => ?_) ?_, hput⟩
  · rw [blocksSize_put]
    exact hlt
  · rw [block_put, if_pos ⟨rfl, hlt⟩]
    simp
  · have hold := (hs.sane.parent b n'.id (by rw [hs.place.ops]; simp [hmem])).1
    exact Nat.not_lt.2 (hcopy.opsNew n' (mem_subsAll_of_mem mem_cons_self)) hold
  · intro k hk
    obtain rfl := mem_singleton.1 hk
    rw [onGraph, op_put, if_pos ⟨rfl, hcopy.lt _ mem_cons_self⟩]

/-- **Duplicates to the insertion point are emitted.** -/
theorem cloneAll_emits (hsrc : Source V ns m e.graph) (hrules : ∀ k ∈ subsAll ns, Rules e.graph k)
    (hne : ∀ k ∈ subsAll ns, k.body ≠ some b) (hW : ∀ v ∈ V, m.lookup v ∈ W) :
    Emits W b pre post e (cloneAll (ns.map Node.id) m) fun m' e' ns' =>
      Copied ns ns' m m' e e' (some b) := by
  induction ns generalizing V W m e pre with
  | nil => exact .pure hs (.refl hs.sane _ _)
  | cons n ns tail =>
    refine Emits.bind hs (clone_emits hs hsrc.part
      (fun k hk => hrules k (by simpa using .inl (by simpa using hk))) hW)
        fun m₁ e₁ ns₁ hemit hcopy => ?_
    have hnames {k : Node} (hk : k ∈ subsAll ns) {v : ValueId} (hv : v ∈ k.names) :
        v.idx < e.graph.values.size := by
      have hin := names_visible hsrc.inScope k (by simpa using .inr hk) v hv
      exact (mem_append.1 hin).elim (hsrc.visible v) (hsrc.held.defs_lt hsrc.sane v)
    have hrest : Source (outs [n] ++ V) ns m₁ e₁.graph := hsrc.rest hcopy fun d hd k hk => by
      cases hd
      exact hne k (by simp [hk])
    refine (tail hemit.next hrest (fun k hk => hcopy.grows.natural natural_rules
      (fun v hv => hnames hk hv) (hrules k (by simp [hk]))) (fun k hk => hne k (by simp [hk]))
      fun v hv => ?_).mono fun m' e' ns' _ hcopies => hcopy.trans hsrc (fun d hd => ?_) hcopies
    · rcases mem_append.1 hv with hv | hv
      · refine mem_append_left _ ?_
        rw [hcopy.maps.outs]
        exact mem_map_of_mem hv
      · rw [hcopy.same v (hsrc.part.apart v hv)]
        exact mem_append_right _ (hW v hv)
    · cases hd
      exact hs.place.lt

end Edit

end ConvNest.Program
