/-
# The inner body is local to its slice

For values of both variables, the inner body inserts a slice into the carried tensor.  Which slice
it is does not depend on the elements of the tensor (`Nest.box_eq`), and what is inserted depends
only on what was in the slice.  So the body is a step that is local to the positions that the slice
covers (`Nest.step_local`).
-/
import ConvNest.Proofs.SwapNest

namespace ConvNest.Program

open Node List

namespace NestParts

variable (p : NestParts)

/-- The offsets and sizes of the slice, for values of both variables. -/
def box (S : Store) (first : Datum) (x : Int64 × Int64) : Option (List Int64 × List Int64) :=
  (p.base S first x.1).bind fun U =>
    (execAll p.before (U.assign [p.innerIv, p.innerCarried] [.index x.2, first])).bind fun C =>
      p.acc.head.offsetsAndSizes.bind fun q => Head.sliceWords C q.1 q.2

/-- The body as a step on tensors. -/
def tensorStep (S : Store) (first : Datum) (x : Int64 × Int64) (t : Tensor) : Option Tensor :=
  (p.step S first x (.tensor t)).bind Datum.tensor?

end NestParts

theorem sliceWords_length {S : Store} {os zs : List Index} {w : List Int64 × List Int64}
    (h : Head.sliceWords S os zs = some w) : w.1.length ≤ w.2.length := by
  induction os generalizing zs w with
  | nil =>
    cases h
    exact Nat.zero_le _
  | cons o os ih =>
    obtain ⟨a, -, h⟩ := Option.bind_eq_some_iff.1 h
    cases zs with
    | nil => cases h
    | cons z zs =>
      obtain ⟨b, -, h⟩ := Option.bind_eq_some_iff.1 h
      obtain ⟨w', hw', h⟩ := Option.bind_eq_some_iff.1 h
      cases h
      exact Nat.succ_le_succ (ih hw')

namespace Nest

variable {V : List ValueId} {n : Node} {p : NestParts} (h : Nest V n p)

include h

/-! ## 1. Scopes -/

/-- What is visible in the inner body, but for what the outer loop carries. -/
abbrev scope (V : List ValueId) (p : NestParts) : List ValueId :=
  [p.innerIv, p.innerCarried] ++ (outs p.prior ++ p.outerIv :: V)

theorem apartInner : Apart (scope V p) p.inner.nodes := by
  obtain ⟨y, hnodes, -, -⟩ := h.outerBody
  have ha := h.apartBody
  rw [hnodes] at ha
  refine ⟨?_, fun v hv => ?_⟩
  · have := ha.nodup
    rw [defs_append, defs_cons, defs_single p.inner] at this
    grind
  · have hnodup := ha.nodup
    have hout := ha.outside
    rw [defs_append, defs_cons, defs_single p.inner, h.innerArgs] at hnodup hout
    simp only [mem_append] at hv
    have hprior := @outs_subset_defs p.prior v
    grind

theorem scopedBefore : ScopedAll (scope V p) p.before := by
  obtain ⟨y, hnodes, -, -⟩ := h.innerBody
  have hs := h.scopedInner
  rw [hnodes, NestParts.body, append_assoc, scopedAll_append] at hs
  exact hs.1

theorem scopedAcc : p.acc.Scoped (outs p.before ++ scope V p) := by
  obtain ⟨y, hnodes, -, -⟩ := h.innerBody
  have hs := h.scopedInner
  rw [hnodes, NestParts.body, append_assoc, scopedAll_append] at hs
  exact (scopedAll_cons.1 hs.2).1

theorem apartBefore : Apart (scope V p) p.before := by
  obtain ⟨y, hnodes, -, -⟩ := h.innerBody
  have ha := h.apartInner
  rw [hnodes, NestParts.body, append_assoc] at ha
  refine ⟨?_, fun v hv hd => ha.outside v hv ?_⟩
  · have := ha.nodup
    rw [defs_append] at this
    exact (nodup_append.1 this).1
  · rw [defs_append]
    exact mem_append_left _ hd

theorem carried_ne : p.innerCarried ≠ p.innerIv := by
  obtain ⟨y, hnodes, -, -⟩ := h.outerBody
  have hnodup := h.apartBody.nodup
  rw [hnodes, defs_append, defs_cons, defs_single p.inner, h.innerArgs] at hnodup
  grind

theorem operand_ne {v : ValueId} {k : Nat} (hk : p.acc.head.operands[k]? = some v) (hne : k ≠ 1) :
    v ≠ p.innerCarried := by
  rintro rfl
  match k, hne with
  | 0, _ => exact h.accOthers.1 hk
  | k + 2, _ =>
    refine h.accOthers.2 (mem_of_getElem? (i := k) ?_)
    rw [getElem?_drop, Nat.add_comm]
    exact hk

/-! ## 2. The slice -/

variable {S U : Store} {i : Int64} {t t₀ u : Tensor}

/-- What the inner body does: it computes the source of the accumulation, and inserts it. -/
structure Inserts (p : NestParts) (A : Store) (t : Tensor) (C : Store) (w : List Int64 × List Int64)
    (src t' : Tensor) : Prop where
  before : execAll p.before A = some C
  slice : p.acc.head.offsetsAndSizes.bind (fun q => Head.sliceWords C q.1 q.2) = some w
  source : p.acc.head.operands[0]?.bind C.tensor = some src
  insert : src.insertSlice t w.1 w.2 = .ok t'

theorem entered_carried (d : Datum) : p.entered U i d p.innerCarried = some d := by
  rw [NestParts.entered_apply, if_neg h.carried_ne, if_pos rfl]

/-- The inner body only runs if a tensor is carried, and inserts a slice into it. -/
theorem inserts_of_run {d : Datum} {ds : List Datum}
    (hrun : runAll p.inner.nodes (p.entered U i d) = some ds) :
    ∃ t C w src t', d = .tensor t ∧ Inserts p (p.entered U i d) t C w src t' ∧
      ds = [.tensor t'] := by
  obtain ⟨y, hnodes, hterm, hoperands⟩ := h.innerBody
  have hapart := h.apartInner
  rw [hnodes, NestParts.body, append_assoc] at hapart
  rw [hnodes, runAll_append h.bodyInner, NestParts.body, execAll_append] at hrun
  obtain ⟨D, hD, hend⟩ := Option.bind_eq_some_iff.1 hrun
  obtain ⟨C, hC, hD⟩ := Option.bind_eq_some_iff.1 hD
  obtain ⟨C', hC', hD⟩ := Option.bind_eq_some_iff.1 hD
  have hkinds : p.acc.head.kind ≠ .forLoop ∧ p.acc.head.kind ≠ .generic := by simp [h.accKind]
  obtain ⟨ty, r, -, hr, rfl⟩ := (exec_leaf_iff hkinds.1 hkinds.2).1 hC'
  have hnodup := hapart.nodup
  rw [defs_append, cons_append, defs_cons, defs_single, defs_append] at hnodup
  -- The carried datum is still there, and the result of the accumulation stays.
  have hdest : C p.innerCarried = some d := by
    rw [execAll_frame hC fun hout => h.apartBefore.outside _ (by simp) (outs_subset_defs _ hout),
      h.entered_carried]
  have hresult : D p.result = some r := by
    have hmem : p.result ∈ p.acc.head.results := mem_of_getElem? h.accResult
    rw [execAll_frame hD fun hout => ?_]
    · rw [Store.assign_getElem (by grind) h.accResult]
      rfl
    · have := outs_subset_defs _ hout
      grind
  simp only [Head.leaf, h.accKind, Head.insertSlice, h.accDest, Option.bind_eq_bind,
    Option.bind_eq_some_iff, Option.some.injEq, exists_eq_left', Option.pure_def] at hr
  obtain ⟨v, hv, src, hsrc, t, ht, q, hq, w, hw, t', ht', rfl⟩ := hr
  obtain rfl : d = .tensor t := by
    rw [Store.tensor, hdest] at ht
    cases d <;> cases ht
    rfl
  refine ⟨t, C, w, src, t', rfl, ⟨hC, ?_, ?_, toOption_eq_some.1 ht'⟩, ?_⟩
  · rw [hq]
    exact hw
  · rw [hv]
    exact hsrc
  · rw [runAll_terminator hterm, hoperands, mapM_cons, hresult] at hend
    exact (Option.some.inj hend).symm

variable {C : Store} {w : List Int64 × List Int64} {src t' : Tensor}

/-- The values that give the slice are visible at the accumulation. -/
theorem slice_visible {q : List Index × List Index} (hq : p.acc.head.offsetsAndSizes = some q)
    {v : ValueId} (hv : (.dynamic v : Index) ∈ q.1 ++ q.2) : v ∈ outs p.before ++ scope V p :=
  (scoped_iff.1 h.scopedAcc).1 v (offsetsAndSizes_subset hq v (mem_append.1 hv))

/-- Whatever the body extracts from the carried tensor is the slice that it inserts. -/
theorem extracts (hin : Inserts p (p.entered U i (.tensor t)) t C w
      src t') : ∀ s ∈ logAll (scope V p) p.before
        (p.entered U i (.tensor t)), ExtractsAt p.innerCarried w s := by
  intro s hs hmem
  have hplace := scene_place hs
  have hnode : s.node ∈ subsAll (p.before ++ p.after) := by
    rw [subsAll_append]
    exact mem_append_left _ hplace.mem
  obtain ⟨q, hq, hw⟩ := Option.bind_eq_some_iff.1 hin.slice
  refine ⟨q, (h.slices _ hnode hmem).trans hq, ?_⟩
  rw [← hw]
  refine Head.sliceWords_congr fun v hv => ?_
  have hvisible : v ∈ s.visible := (scoped_iff.1 (hplace.scoped h.scopedBefore)).1 v
    (offsetsAndSizes_subset ((h.slices _ hnode hmem).trans hq) v (mem_append.1 hv))
  rw [Store.index, scene_store h.apartBefore hs hin.before v hvisible (h.slice_visible hq hv),
    Store.index]

omit h in
/-- Stores in which alike tensors are carried. -/
theorem assign_alike (W : List ValueId) (U : Store) (i : Int64) (halike : t.Alike u) :
    Likeness.alike.Follows (fun v => v) ([p.innerIv, p.innerCarried] ++ W)
      (p.entered U i (.tensor t)) (p.entered U i (.tensor u)) := by
  intro v _
  rw [NestParts.entered_apply, NestParts.entered_apply]
  split
  · exact .some (.index i)
  · split
    · exact .some (.tensor halike)
    · exact Likeness.rel_self

/-- **The slice does not depend on the elements of the carried tensor.** -/
theorem slice_alike (halike : t.Alike u) (hin : Inserts p
      (p.entered U i (.tensor t)) t C w src t') : ∃ C',
    execAll p.before (p.entered U i (.tensor u)) = some C' ∧
      p.acc.head.offsetsAndSizes.bind (fun q => Head.sliceWords C' q.1 q.2) = some w := by
  obtain ⟨C', hC', hsame⟩ := execAll_like (mapsAll_refl _) h.scopedBefore (fun _ _ _ _ heq => heq)
    (assign_alike (p := p) (outs p.prior ++ p.outerIv :: V) U i halike) hin.before
  refine ⟨C', hC', ?_⟩
  rw [← hin.slice]
  cases hq : p.acc.head.offsetsAndSizes with
  | none => rfl
  | some q => exact Head.sliceWords_congr fun v hv => hsame.index (h.slice_visible hq hv)

/-- What is inserted depends only on what was in the slice. -/
theorem inserts_congr (hagree : Tensor.AgreeOn (Tensor.Covers t.dims w.1 w.2) t u)
    (hin : Inserts p (p.entered U i (.tensor t)) t C w src t') :
    ∃ C', execAll p.before (p.entered U i (.tensor u)) = some C' ∧
      p.acc.head.operands[0]?.bind C'.tensor = some src := by
  obtain ⟨q, hq, hwords⟩ := Option.bind_eq_some_iff.1 hin.slice
  have hdiffer : Differ p.innerCarried t u (scope V p)
      (p.entered U i (.tensor t)) (p.entered U i (.tensor u)) := by
    refine ⟨fun v _ hne => ?_, ?_, ?_⟩
    · rw [NestParts.entered_apply, NestParts.entered_apply, if_neg hne, if_neg hne]
    · exact h.entered_carried _
    · exact h.entered_carried _
  have hcarried : p.innerCarried ∉ defs p.before :=
    h.apartBefore.outside _ (by simp)
  obtain ⟨C', hC', hsame⟩ := execAll_reading
    (hagree.extractSlice (sliceWords_length hwords)) h.scopedBefore hcarried
    (fun m hm => h.reads m (by simp [hm]))
    (fun m hm => h.bodyInner m (mem_append_left _ hm)) hdiffer (h.extracts hin) hin.before
  refine ⟨C', hC', ?_⟩
  rw [← hin.source]
  cases hv : p.acc.head.operands[0]? with
  | none => rfl
  | some v =>
    have hmem := (scoped_iff.1 h.scopedAcc).1 v (mem_of_getElem? hv)
    simp only [Option.bind_some, Store.tensor, hsame.same v hmem (h.operand_ne hv (by decide))]

/-! ## 3. The step is local -/

variable {x : Int64 × Int64}

variable (hU : p.base S (.tensor t₀) x.1 = some U)

include hU

/-- A step on tensors inserts the slice of its box. -/
theorem inserts_of_step (hbox : p.box S (.tensor t₀) x = some w) (halike : t₀.Alike t)
    (hstep : p.tensorStep S (.tensor t₀) x t = some t') : ∃ C src,
      Inserts p (p.entered U x.2 (.tensor t)) t C w src t' := by
  obtain ⟨d, hd, ht'⟩ := Option.bind_eq_some_iff.1 hstep
  rw [NestParts.step, hU, Option.bind_some] at hd
  obtain ⟨ds, hds, hd⟩ := Option.bind_eq_some_iff.1 hd
  obtain ⟨_, C, w', src, t'', ⟨⟩, hin, rfl⟩ := h.inserts_of_run hds
  cases hd
  cases ht'
  obtain ⟨C', hC', hw'⟩ := h.slice_alike halike.symm hin
  rw [NestParts.box, hU, Option.bind_some, hC', Option.bind_some, hw'] at hbox
  cases hbox
  exact ⟨C, src, hin⟩

/-- A step succeeds on all tensors that are alike. -/
theorem step_alike (halike : t.Alike u) (hstep : p.tensorStep S (.tensor t₀) x t = some t') :
    ∃ u', p.tensorStep S (.tensor t₀) x u = some u' := by
  simp only [NestParts.tensorStep, NestParts.step, hU, Option.bind_some] at hstep ⊢
  obtain ⟨d, hd, ht'⟩ := Option.bind_eq_some_iff.1 hstep
  obtain ⟨ds, hds, hd⟩ := Option.bind_eq_some_iff.1 hd
  obtain ⟨ds', hds', -⟩ := runAll_like (mapsAll_refl _) h.scopedInner (fun _ _ _ _ heq => heq)
    (assign_alike (p := p) (outs p.prior ++ p.outerIv :: V) U x.2 halike) hds
  obtain ⟨-, -, -, -, u', -, -, rfl⟩ := h.inserts_of_run hds'
  exact ⟨u', by rw [hds']; rfl⟩

/-- **The inner body is local to the slice that it accumulates into.** -/
theorem step_local (hbox : p.box S (.tensor t₀) x = some w) :
    Tensor.LocalTo t₀ (Tensor.Covers t₀.dims w.1 w.2) (p.tensorStep S (.tensor t₀) x) where
  writes {t t'} halike hstep := by
    obtain ⟨C, src, hin⟩ := h.inserts_of_step hU hbox halike hstep
    obtain ⟨q, -, hwords⟩ := Option.bind_eq_some_iff.1 hin.slice
    have := Tensor.insertSlice_frame (sliceWords_length hwords) hin.insert
    rwa [halike.dims] at this
  reads {t t' u} halike hstep hagree := by
    obtain ⟨u', hu'⟩ := h.step_alike hU hagree.alike hstep
    obtain ⟨C, src, hin⟩ := h.inserts_of_step hU hbox halike hstep
    obtain ⟨C₁, src₁, hin₁⟩ := h.inserts_of_step hU hbox (halike.trans hagree.alike) hu'
    have hcovers : Tensor.AgreeOn (Tensor.Covers t.dims w.1 w.2) t u := by rwa [halike.dims]
    obtain ⟨C₂, hC₂, hsrc⟩ := h.inserts_congr hcovers hin
    cases hin₁.before.symm.trans hC₂
    obtain rfl := Option.some.inj (hin₁.source.symm.trans hsrc)
    have hrel := hagree.insertSlice src₁ w.1 w.2
    rw [toOption_eq_some.2 hin.insert, toOption_eq_some.2 hin₁.insert] at hrel
    refine ⟨u', hu', ?_⟩
    cases hrel with
    | some hrel => exact hrel

end Nest

end ConvNest.Program
