/-
# Names along several copies

When trees are copied one after the other with one mapping, the names that the mapping gives stay
apart: what is copied later gets names that are new at that time.  `Named` keeps track of this, and
`Sees` of what the copies see.
-/
import ConvNest.Proofs.Copy

namespace ConvNest.Program

open Node Graph List

/-! ## 1. Names that stay apart -/

/-- The mapping gives the values `D` names that it gives no other value of `W`.  All names are names
of the graph, and none of them is in `C`. -/
structure Named (C D W : List ValueId) (m : Mapping) (g : Graph) : Prop where
  among : D ⊆ W
  separates : Separates m.lookup D W
  range : ∀ v ∈ W, (m.lookup v).idx < g.values.size
  avoids : ∀ v ∈ W, m.lookup v ∉ C
  bound : ∀ c ∈ C, c.idx < g.values.size

section Names

variable {C D W N : List ValueId} {m m' : Mapping} {g g' : Graph}

/-- More values get new names. -/
theorem Named.extend (h : Named C D W m g) (hgrows : g.values.size ≤ g'.values.size)
    (hsame : ∀ v ∈ W, m'.lookup v = m.lookup v)
    (hfresh : ∀ v ∈ N, g.values.size ≤ (m'.lookup v).idx)
    (hrange : ∀ v ∈ N, (m'.lookup v).idx < g'.values.size)
    (hinj : ∀ u ∈ N, ∀ v ∈ N, m'.lookup u = m'.lookup v → u = v) :
    Named C (N ++ D) (N ++ W) m' g' where
  among := append_subset_append N h.among
  separates := by
    have hlow {v : ValueId} (hv : v ∈ W) : (m'.lookup v).idx < g.values.size := by
      rw [hsame v hv]
      exact h.range v hv
    intro u hu v hv heq
    rcases mem_append.1 hu with hu | hu <;> rcases mem_append.1 hv with hv | hv
    · exact hinj u hu v hv heq
    · exact absurd (hlow hv) (Nat.not_lt.2 (heq ▸ hfresh u hu))
    · exact absurd (hlow (h.among hu)) (Nat.not_lt.2 (heq ▸ hfresh v hv))
    · rw [hsame u (h.among hu), hsame v hv] at heq
      exact h.separates u hu v hv heq
  range v hv := by
    rcases mem_append.1 hv with hv | hv
    · exact hrange v hv
    · rw [hsame v hv]
      exact Nat.lt_of_lt_of_le (h.range v hv) hgrows
  avoids v hv := by
    rcases mem_append.1 hv with hv | hv
    · exact fun hc => absurd (h.bound _ hc) (Nat.not_lt.2 (hfresh v hv))
    · rw [hsame v hv]
      exact h.avoids v hv
  bound c hc := Nat.lt_of_lt_of_le (h.bound c hc) hgrows

/-- Copies get new names. -/
theorem Named.copied {e e' : Editor} (h : Named C D W m e.graph) {ns ns' : List Node}
    {b : Option BlockId} (hcopied : Copied ns ns' m m' e e' b) (hapart : ∀ v ∈ W, v ∉ defs ns) :
    Named C (defs ns ++ D) (defs ns ++ W) m' e'.graph :=
  h.extend hcopied.grows.valuesLe (fun v hv => hcopied.same v (hapart v hv)) hcopied.fresh
    hcopied.range hcopied.inj

end Names

/-! ## 2. What copies see -/

/-- What the sources of copies see is in the graph, and the mapping gives it visible names of the
same types. -/
structure Sees (U W : List ValueId) (m : Mapping) (g : Graph) : Prop where
  lt : ∀ v ∈ U, v.idx < g.values.size
  mem : ∀ v ∈ U, m.lookup v ∈ W
  ty : ∀ v ∈ U, g.ty (m.lookup v) = g.ty v

section Sight

variable {U W : List ValueId} {m m' : Mapping} {g g' : Graph} {e e' : Editor} {b : Option BlockId}
  {ns : List Node}

theorem Mapping.lookup_empty (v : ValueId) : Mapping.empty.lookup v = v := by
  simp [Mapping.empty, Mapping.lookup]

theorem sees_empty {V : List ValueId} (h : ∀ v ∈ V, v.idx < g.values.size) : Sees V V .empty g :=
  ⟨h, fun v hv => by rwa [Mapping.lookup_empty], fun v _ => by rw [Mapping.lookup_empty]⟩

/-- What is seen may grow. -/
theorem Sees.mono (h : Sees U W m g) {U' W' : List ValueId} (hU : U' ⊆ U) (hW : W ⊆ W') :
    Sees U' W' m g :=
  ⟨fun v hv => h.lt v (hU hv), fun v hv => hW (h.mem v (hU hv)), fun v hv => h.ty v (hU hv)⟩

/-- The graph may grow. -/
theorem Sees.grow (h : Sees U W m g) (hW : ∀ w ∈ W, w.idx < g.values.size)
    (hgrows : Extends g g' b) :
    Sees U W m g' where
  lt v hv := Nat.lt_of_lt_of_le (h.lt v hv) hgrows.valuesLe
  mem := h.mem
  ty v hv := by
    rw [hgrows.ty _ (hW _ (h.mem v hv)), hgrows.ty _ (h.lt v hv)]
    exact h.ty v hv

/-- One more value is mapped to a visible one. -/
theorem Sees.insert (h : Sees U W m g) {src dst : ValueId} (hsrc : src.idx < g.values.size)
    (hdst : dst ∈ W) (hty : g.ty dst = g.ty src) : Sees (src :: U) W (m.insert src dst) g := by
  refine ⟨fun v hv => ?_, fun v hv => ?_, fun v hv => ?_⟩
  · rcases mem_cons.1 hv with rfl | hv
    · exact hsrc
    · exact h.lt v hv
  · rw [Mapping.lookup_insert]
    split
    · exact hdst
    · next hne => exact h.mem v ((mem_cons.1 hv).resolve_left fun heq => hne heq.symm)
  · rw [Mapping.lookup_insert]
    split
    · next heq => rw [← heq, hty]
    · next hne => exact h.ty v ((mem_cons.1 hv).resolve_left fun heq => hne heq.symm)

/-- More values are mapped to visible ones. -/
theorem Sees.insertAll (h : Sees U W m g) {src dst : List ValueId}
    (hm : m.insertAll src dst = .ok m') (hsrc : ∀ v ∈ src, v.idx < g.values.size)
    (hdst : ∀ v ∈ dst, v ∈ W) (htys : dst.map g.ty = src.map g.ty) : Sees (src ++ U) W m' g := by
  obtain ⟨-, rfl⟩ := Mapping.insertAll_ok hm
  clear hm
  induction src generalizing dst m U with
  | nil => simpa using h
  | cons v src ih =>
    cases dst with
    | nil => cases htys
    | cons d dst =>
      obtain ⟨hty, htys⟩ := List.cons.inj htys
      refine (ih (h.insert (hsrc v mem_cons_self) (hdst d mem_cons_self) hty)
        (fun u hu => hsrc u (mem_cons_of_mem _ hu)) (fun u hu => hdst u (mem_cons_of_mem _ hu))
        htys).mono (fun u hu => ?_) (List.Subset.refl _)
      simp only [mem_cons, mem_append] at hu ⊢
      tauto

/-- What has been copied is seen too. -/
theorem Sees.copied (h : Sees U W m e.graph)
    (hW : ∀ w ∈ W, w.idx < e.graph.values.size) {ns' : List Node}
    (hcopied : Copied ns ns' m m' e e' b) (hheld : ∀ v ∈ outs ns, v.idx < e.graph.values.size)
    (hapart : ∀ v ∈ U, v ∉ defs ns) :
    Sees (outs ns ++ U) (outs ns' ++ W) m' e'.graph := by
  have hgrow := h.grow hW hcopied.grows
  have hsame {v : ValueId} (hv : v ∈ U) : m'.lookup v = m.lookup v := hcopied.same v (hapart v hv)
  refine ⟨fun v hv => ?_, fun v hv => ?_, fun v hv => ?_⟩
  · rcases mem_append.1 hv with hv | hv
    · exact Nat.lt_of_lt_of_le (hheld v hv) hcopied.grows.valuesLe
    · exact hgrow.lt v hv
  · rcases mem_append.1 hv with hv | hv
    · rw [hcopied.maps.outs]
      exact mem_append_left _ (mem_map_of_mem hv)
    · rw [hsame hv]
      exact mem_append_right _ (hgrow.mem v hv)
  · rcases mem_append.1 hv with hv | hv
    · rw [hcopied.types v (outs_subset_defs _ hv), hcopied.grows.ty v (hheld v hv)]
    · rw [hsame hv]
      exact hgrow.ty v hv

/-- Trees that see what the mapping gives names can be copied. -/
theorem Sees.source (h : Sees U W m g) (hW : ∀ w ∈ W, w.idx < g.values.size) (hg : Sane g)
    (hheld : Held g ns) (hlt : ∀ n ∈ ns, n.id.idx < g.ops.size) (hs : ScopedAll U ns)
    (hdefs : (defs ns).Nodup) (hapart : ∀ v ∈ U, v ∉ defs ns) (hids : (ids ns).Nodup) :
    Source U ns m g where
  sane := hg
  held := hheld
  lt := hlt
  inScope := hs
  defsNodup := hdefs
  apart := hapart
  idsNodup := hids
  visible := h.lt
  range v hv := hW _ (h.mem v hv)
  types := h.ty

end Sight

end ConvNest.Program
