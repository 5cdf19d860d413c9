/-
# A value that is read only through a slice

A tree that reads a value only by extracting one and the same slice of it cannot tell two tensors
apart that have the same slice: from stores that differ only there it computes the same
(`exec_reading`, `execAll_reading`).
-/
import ConvNest.Proofs.Alike
import ConvNest.Proofs.Context

namespace ConvNest.Program

open Node List

/-! ## 1. Stores that differ at one value -/

/-- Stores that agree on the given values, but for one, which has the tensor `t` in the first and
`u` in the second one. -/
structure Differ (c : ValueId) (t u : Tensor) (V : List ValueId) (S S' : Store) : Prop where
  same : ∀ v ∈ V, v ≠ c → S' v = S v
  left : S c = some (.tensor t)
  right : S' c = some (.tensor u)

namespace Differ

variable {c : ValueId} {t u : Tensor} {V vs : List ValueId} {S S' : Store}

theorem assign (h : Differ c t u V S S') (hc : c ∉ vs) (ds : List Datum) :
    Differ c t u (vs ++ V) (S.assign vs ds) (S'.assign vs ds) where
  same v hv hne := by
    by_cases hmem : v ∈ vs
    · simp only [Store.assign]
      obtain ⟨k, hk⟩ := Option.isSome_iff_exists.1 (isSome_idxOf?.2 hmem)
      rw [hk]
    · rw [Store.assign_of_notMem hmem, Store.assign_of_notMem hmem]
      exact h.same v ((mem_append.1 hv).resolve_left hmem) hne
  left := by rw [Store.assign_of_notMem hc, h.left]
  right := by rw [Store.assign_of_notMem hc, h.right]

/-- The stores agree on operands that are visible, if the value is none of them. -/
theorem follows (h : Differ c t u V S S') (hvs : ∀ v ∈ vs, v ∈ V) (hc : c ∉ vs) :
    Follows (fun v => v) vs S S' := fun v hv => h.same v (hvs v hv) fun heq => hc (heq ▸ hv)

end Differ

/-! ## 2. Trees -/

namespace Node

/-- A node uses a value at most as the tensor of which it extracts a slice. -/
def Extracts (c : ValueId) (m : Node) : Prop :=
  c ∈ m.head.operands → m.head.kind = .extractSlice ∧ m.head.operands[0]? = some c ∧
    c ∉ m.head.operands.drop 1

/-- A scene whose node uses a value extracts the given slice. -/
def ExtractsAt (c : ValueId) (w : List Int64 × List Int64) (s : Scene) : Prop :=
  c ∈ s.node.head.operands → ∃ p, s.node.head.offsetsAndSizes = some p ∧
    Head.sliceWords s.store p.1 p.2 = some w

section Trees

variable {c : ValueId} {t u : Tensor} {w : List Int64 × List Int64}
  (hw : (u.extractSlice w.1 w.2).toOption = (t.extractSlice w.1 w.2).toOption) {ns : List Node}
variable {V : List ValueId} {S S' : Store}

/-- Running a node from stores that differ at a value comes to stores that differ only there. -/
def Overlooks (c : ValueId) (t u : Tensor) (w : List Int64 × List Int64) (n : Node) : Prop :=
  ∀ V S S' T, n.Scoped V → c ∉ defs [n] → (∀ m ∈ n.subs, Extracts c m) → Differ c t u V S S' →
    (∀ s ∈ n.log V S, ExtractsAt c w s) → n.exec S = some T →
    ∃ T', n.exec S' = some T' ∧ Differ c t u (n.head.results ++ V) T T'

theorem runAll_reading_of (ih : ∀ n ∈ ns, Overlooks c t u w n) (hs : ScopedAll V ns)
    (hc : c ∉ defs ns) (hread : ∀ m ∈ subsAll ns, Extracts c m) (h : Differ c t u V S S')
    (hlog : ∀ s ∈ logAll V ns S, ExtractsAt c w s) {ds : List Datum}
    (hrun : runAll ns S = some ds) : runAll ns S' = some ds := by
  induction ns generalizing V S S' with
  | nil => simp [runAll_nil] at hrun
  | cons n ns tail =>
    obtain ⟨hn, hns⟩ := scopedAll_cons.1 hs
    have hself : Extracts c n := hread n (by simp)
    rw [defs_cons, mem_append, not_or] at hc
    cases hterm : n.head.kind.isTerminator with
    | true =>
      rw [runAll_terminator hterm] at hrun ⊢
      rw [← hrun]
      refine mapM_congr fun v hv => h.same v ((scoped_iff.1 hn).1 v hv) fun heq => ?_
      rw [(hself (heq ▸ hv)).1] at hterm
      cases hterm
    | false =>
      rw [runAll_cons hterm, Option.bind_eq_some_iff] at hrun
      obtain ⟨T, hT, hrun⟩ := hrun
      rw [logAll_cons hterm, hT] at hlog
      obtain ⟨T', hT', hdiffer⟩ := ih n mem_cons_self V S S' T hn hc.1
        (fun m hm => hread m (by simp [hm])) h (fun s hs => hlog s (mem_append_left _ hs)) hT
      rw [runAll_cons hterm, hT', Option.bind_some]
      exact tail (fun m hm => ih m (mem_cons_of_mem _ hm)) hns hc.2
        (fun m hm => hread m (by simp [hm])) hdiffer (fun s hs => hlog s (mem_append_right _ hs))
        hrun

include hw

/-- Extracting the slice that the tensors have in common. -/
theorem extract_reading {n : Node} (hn : n.Scoped V)
    (hself : Extracts c n) (hmem : c ∈ n.head.operands) (h : Differ c t u V S S')
    (hlog : ExtractsAt c w ⟨V, n, S, none⟩) (ty : Ty) : n.head.leaf ty S' = n.head.leaf ty S := by
  obtain ⟨hkind, hfirst, hrest⟩ := hself hmem
  obtain ⟨p, hp, hwords⟩ := hlog hmem
  have htail : Follows (fun v => v) (n.head.operands.drop 1) S S' := fun v hv =>
    h.same v ((scoped_iff.1 hn).1 v (mem_of_mem_drop hv)) fun heq => hrest (heq ▸ hv)
  have hwords' : Head.sliceWords S' p.1 p.2 = some w := by
    rw [← hwords]
    refine Head.sliceWords_congr fun v hv => htail.same.index ?_
    have := offsetsAndSizes_subset_drop hp v (mem_append.1 hv)
    rwa [hkind, if_neg (by decide)] at this
  have ht : S.tensor c = some t := by simp [Store.tensor, h.left, Datum.tensor?]
  have hu : S'.tensor c = some u := by simp [Store.tensor, h.right, Datum.tensor?]
  simp only [Head.leaf, hkind, Head.extractSlice, hfirst, hp, Option.bind_eq_bind,
    Option.bind_some, ht, hu, hwords, hwords', hw]

/-- **A node that extracts nothing but a slice overlooks what else differs.** -/
theorem exec_reading (n : Node) : Overlooks c t u w n := by
  induction n using Node.induct with
  | mk i hd b as ns ih =>
    intro V S S' T hs hc hread h hlog hT
    obtain ⟨hoperands, hnodes⟩ := scoped_iff.1 hs
    have hself : Extracts c (mk i hd b as ns) := hread _ (self_mem_subs _)
    rw [defs_single, mem_append, not_or, mem_append, not_or] at hc
    obtain ⟨⟨hcr, hca⟩, hcn⟩ := hc
    have hbody (ds : List Datum)
      (hlog : ∀ s ∈ logAll (as ++ V) ns (S.assign as ds), ExtractsAt c w s)
        {ys : List Datum} (hrun : runAll ns (S.assign as ds) = some ys) :
        runAll ns (S'.assign as ds) = some ys :=
      runAll_reading_of ih hnodes hcn (fun m hm => hread m (by rw [subs_eq]; simp [hm]))
        (h.assign hca ds) hlog hrun
    have hreads (hop : Follows (fun v => v) hd.operands S S') : Reads .same (mk i hd b as ns)
        (mk i hd b as ns) S S' :=
      .of_rename (Head.rename_self _).symm rfl hop.same
    have hop (hkind : hd.kind ≠ .extractSlice) :=
      hreads (h.follows hoperands fun hmem => hkind (hself hmem).1)
    have hself : Reads .same (mk i hd b as ns) (mk i hd b as ns) S S' :=
      { kind := rfl, tys := rfl, args := rfl
        ivs := fun hk => (hop (by rw [show hd.kind = _ from hk]; decide)).ivs hk
        inits := fun hk => (hop (by rw [show hd.kind = _ from hk]; decide)).inits hk
        setup := fun hk => (hop (by rw [show hd.kind = _ from hk]; decide)).setup hk
        leaf := fun hl hg ty => by
          by_cases hmem : c ∈ hd.operands
          · exact extract_reading hw hs hself hmem h (hlog _ (scene_mem_log _ _ _)) ty ▸
              Likeness.rel_self
          · exact (hreads (h.follows hoperands hmem)).leaf hl hg ty }
    obtain ⟨ds, rfl, hT'⟩ :=
      hself.retrace_same (fun ds ys hextracts hrun => hbody ds hextracts hrun) hlog hT
    exact ⟨_, hT', h.assign hcr ds⟩

/-- Nodes that extract nothing but a slice overlook what else differs. -/
theorem execAll_reading {T : Store} (hs : ScopedAll V ns) (hc : c ∉ defs ns)
    (hread : ∀ m ∈ subsAll ns, Extracts c m) (hinner : ∀ m ∈ ns, m.head.kind.isTerminator = false)
    (h : Differ c t u V S S') (hlog : ∀ s ∈ logAll V ns S, ExtractsAt c w s)
    (hT : execAll ns S = some T) :
    ∃ T', execAll ns S' = some T' ∧ Differ c t u (outs ns ++ V) T T' := by
  induction ns generalizing V S S' with
  | nil =>
    cases hT
    exact ⟨S', rfl, h⟩
  | cons n ns ih =>
    obtain ⟨hn, hns⟩ := scopedAll_cons.1 hs
    rw [defs_cons, mem_append, not_or] at hc
    rw [execAll_cons, Option.bind_eq_some_iff] at hT
    obtain ⟨U, hU, hT⟩ := hT
    rw [logAll_cons (hinner n mem_cons_self), hU] at hlog
    obtain ⟨U', hU', hdiffer⟩ := exec_reading hw n V S S' U hn hc.1
      (fun m hm => hread m (by simp [hm])) h (fun s hs => hlog s (mem_append_left _ hs)) hU
    obtain ⟨T', hT', hall⟩ := ih hns hc.2 (fun m hm => hread m (by simp [hm]))
      (fun m hm => hinner m (mem_cons_of_mem _ hm)) hdiffer
      (fun s hs => hlog s (mem_append_right _ hs)) hT
    refine ⟨T', by rw [execAll_cons, hU', Option.bind_some, hT'], fun v hv => ?_, hall.left,
      hall.right⟩
    refine hall.same v ?_
    simp only [outs, flatMap_cons, mem_append] at hv ⊢
    tauto

end Trees

end Node

end ConvNest.Program
