/-
# The accumulations of two loops

One execution of the loops executes the accumulation once for every pair of their variables, in the
order of the walk (`Nest.accumulations`).
-/
import ConvNest.Proofs.SwapLocal

namespace ConvNest.Program

open Node List

/-! ## 1. Parts of a log -/

variable {α β γ : Type} {xs : List α}

/-- From each step of a walk that succeeds, some of what is executed in it. -/
theorem sublist_walkLog {step : β → α → Option β} (log : β → α → List γ) {I : β → Prop}
    {Q : α → List γ → Prop} {b r : β}
    (hstep : ∀ b, ∀ x ∈ xs, ∀ c, I b → step b x = some c → I c ∧ ∃ l, l.Sublist (log b x) ∧ Q x l)
    (h : xs.foldlM step b = some r) (hb : I b) :
    I r ∧ ∃ ls, ls.flatten.Sublist (walkLog step log xs b) ∧ Forall₂ Q xs ls := by
  induction xs generalizing b with
  | nil => exact ⟨Option.some.inj h ▸ hb, [], nil_sublist _, .nil⟩
  | cons x xs ih =>
    obtain ⟨c, hc, h⟩ := Option.bind_eq_some_iff.1 h
    obtain ⟨hIc, l, hl, hQ⟩ := hstep b x mem_cons_self c hb hc
    obtain ⟨hIr, ls, hls, hQs⟩ := ih (fun b y hy => hstep b y (mem_cons_of_mem _ hy)) h hIc
    refine ⟨hIr, l :: ls, ?_, .cons hQ hQs⟩
    rw [walkLog_cons, hc, flatten_cons]
    exact hl.append hls

theorem forall₂_flatMap {R : β → γ → Prop} {f : α → List β} {ls : List (List γ)}
    (h : Forall₂ (fun x l => Forall₂ R (f x) l) xs ls) :
    Forall₂ R (xs.flatMap f) ls.flatten := by
  induction h with
  | nil => exact .nil
  | cons h _ ih =>
    exact rel_append h ih

namespace Node

/-- What is executed after the first nodes of a block. -/
theorem logAll_append {V : List ValueId} {ms : List Node} (ns : List Node) {S U : Store}
    (hms : ∀ m ∈ ms, m.head.kind.isTerminator = false) (hU : execAll ms S = some U) :
    ∃ W, (∀ v ∈ outs ms ++ V, v ∈ W) ∧ (logAll W ns U).Sublist (logAll V (ms ++ ns) S) := by
  induction ms generalizing V S with
  | nil =>
    cases hU
    exact ⟨V, fun v hv => by simpa [outs] using hv, List.Sublist.refl _⟩
  | cons m ms ih =>
    rw [execAll_cons, Option.bind_eq_some_iff] at hU
    obtain ⟨T, hT, hU⟩ := hU
    obtain ⟨W, hW, hsub⟩ := ih (V := m.head.results ++ V)
      (fun k hk => hms k (mem_cons_of_mem _ hk)) hU
    refine ⟨W, fun v hv => hW v ?_, ?_⟩
    · simp only [outs, flatMap_cons, mem_append] at hv ⊢
      tauto
    · rw [cons_append, logAll_cons (hms m mem_cons_self), hT]
      exact hsub.trans (sublist_append_right _ _)

end Node

/-! ## 2. Accumulations -/

/-- A scene of the accumulation, for values of both variables. -/
structure Accumulates (V : List ValueId) (p : NestParts) (S : Store) (first : Datum)
    (x : Int64 × Int64) (s : Scene) : Prop where
  node : s.node = p.acc
  point : s.point = none
  visible : p.outerIv ∈ s.visible ∧ p.innerIv ∈ s.visible
  outer : s.store p.outerIv = some (.index x.1)
  inner : s.store p.innerIv = some (.index x.2)
  slice : ∃ w, p.acc.head.offsetsAndSizes.bind (fun q => Head.sliceWords s.store q.1 q.2) = some w ∧
    p.box S first x = some w

namespace Nest

variable {V : List ValueId} {n : Node} {p : NestParts} (h : Nest V n p)

include h

variable {S U : Store} {t t₀ : Tensor} {o i : Int64} {ds : List Datum} {is : List Int64}

theorem innerIv_notMem : p.innerIv ∉ outs p.before := fun hout =>
  h.apartBefore.outside _ (by simp [scope]) (outs_subset_defs _ hout)

theorem outerIv_notMem : p.outerIv ∉ outs p.before ∧ p.outerIv ≠ p.innerIv ∧
    p.outerIv ≠ p.innerCarried := by
  obtain ⟨y, hnodes, -, -⟩ := h.outerBody
  refine ⟨fun hout => h.apartBefore.outside _ (by simp) (outs_subset_defs _ hout), ?_⟩
  have hout := h.apartBody.outside p.outerIv (by simp)
  rw [hnodes, defs_append, defs_cons, defs_single p.inner, h.innerArgs] at hout
  simp only [mem_append, mem_cons, not_or] at hout
  tauto

/-- One iteration of the inner loop executes the accumulation. -/
theorem accumulates {d : Datum} (hU : p.base S d o = some U) {u : Tensor}
    (hu : t₀.Alike u) {W : List ValueId} (hW : p.outerIv ∈ W)
    (hrun : runAll p.inner.nodes (p.entered U i (.tensor u)) = some ds) :
    (∃ u', ds = [.tensor u'] ∧ t₀.Alike u') ∧ ∃ s,
      [s].Sublist (logAll ([p.innerIv, p.innerCarried] ++ W) p.inner.nodes
        (p.entered U i (.tensor u))) ∧
      Accumulates V p S (.tensor t₀) (o, i) s := by
  obtain ⟨y, hnodes, -, -⟩ := h.innerBody
  obtain ⟨_, C, w, src, u', ⟨⟩, hin, rfl⟩ := h.inserts_of_run hrun
  obtain ⟨q, hq, hwords⟩ := Option.bind_eq_some_iff.1 hin.slice
  refine ⟨⟨u', rfl,
    hu.trans (Tensor.insertSlice_frame (sliceWords_length hwords) hin.insert).alike⟩, ?_⟩
  have hbody : p.inner.nodes = p.before ++ (p.acc :: p.after ++ [y]) := by
    rw [hnodes, NestParts.body, append_assoc]
  obtain ⟨W', hW', hsub⟩ := Node.logAll_append (V := [p.innerIv, p.innerCarried] ++ W)
    (p.acc :: p.after ++ [y]) (fun m hm => h.bodyInner m (mem_append_left _ hm)) hin.before
  have hacc : p.acc.head.kind.isTerminator = false := by rw [h.accKind]; rfl
  refine ⟨⟨W', p.acc, C, none⟩, ?_, rfl, rfl, ⟨hW' _ ?_, hW' _ ?_⟩, ?_, ?_, w, hin.slice, ?_⟩
  · rw [hbody]
    refine List.Sublist.trans ?_ hsub
    rw [cons_append, logAll_cons hacc]
    exact (singleton_sublist.2 (scene_mem_log _ _ _)).trans (sublist_append_left _ _)
  · simp [hW]
  · simp
  · show C p.outerIv = _
    obtain ⟨hbefore, hiv, hcarried⟩ := h.outerIv_notMem
    rw [execAll_frame hin.before hbefore, NestParts.entered_apply, if_neg hiv, if_neg hcarried,
      execAll_frame hU (h.prior_notMem (by simp)), Store.assign_pair, if_pos rfl]
  · show C p.innerIv = _
    rw [execAll_frame hin.before h.innerIv_notMem, NestParts.entered_apply, if_pos rfl]
  · obtain ⟨U₀, hU₀, hfollows⟩ := h.base_congr hU (.tensor t₀)
    obtain ⟨C₁, hC₁, hw₁⟩ := h.slice_alike hu.symm hin
    have hassigned :=
      hfollows.assign_fixed (fun u (_ : u ∈ [p.innerIv, p.innerCarried]) _ => Iff.rfl)
      [.index i, .tensor t₀]
    obtain ⟨C₀, hC₀, hsame⟩ := execAll_congr h.scopedBefore (fun v hv => (hassigned v hv).symm) hC₁
    rw [NestParts.box, hU₀, Option.bind_some, hC₀, Option.bind_some, ← hw₁, hq]
    refine Head.sliceWords_congr fun v hv => ?_
    rw [Store.index, Store.index, ← hsame v (h.slice_visible hq hv)]

/-- One iteration of the outer loop executes the accumulation for each value of the inner
variable. -/
theorem accumulations_inner (his : p.inner.head.ivs S = some is) (ht : t₀.Alike t)
    (hrun : Head.iteration n.args (runAll n.nodes) S [.tensor t] o = some ds) :
    (∃ u, ds = [.tensor u] ∧ t₀.Alike u) ∧ ∃ l,
      l.Sublist (logAll (n.args ++ V) n.nodes (S.assign n.args [.index o, .tensor t])) ∧
      Forall₂ (Accumulates V p S (.tensor t₀)) (is.map (o, ·)) l := by
  obtain ⟨U, is', hU, his', hivs, hinits, houts⟩ := h.outer_parts hrun
  cases his.symm.trans his'
  obtain ⟨y, hnodes, -, -⟩ := h.outerBody
  have hinner : p.inner.head.kind.isTerminator = false := by rw [h.innerKind]; rfl
  obtain ⟨W, hW, hsub⟩ := Node.logAll_append (V := n.args ++ V) [p.inner, y] h.priorInner
    (show execAll p.prior (S.assign n.args [.index o, .tensor t]) = some U by rwa [h.outerArgs])
  have hvisible : p.outerIv ∈ W := hW _ (by simp [h.outerArgs])
  obtain ⟨hds, ls, hls, hall⟩ := sublist_walkLog
    (fun c iv => logAll (p.inner.args ++ W) p.inner.nodes
      (U.assign p.inner.args (.index iv :: c)))
    (I := fun ds => ∃ u, ds = [.tensor u] ∧ t₀.Alike u)
    (Q := fun i l => Forall₂ (Accumulates V p S (.tensor t₀)) [(o, i)] l)
    (fun c i _ c' hc hstep => by
      obtain ⟨u, rfl, hu⟩ := hc
      rw [Head.iteration, h.innerArgs] at hstep
      obtain ⟨hc', s, hs, hacc⟩ := h.accumulates hU hu hvisible hstep
      rw [h.innerArgs]
      exact ⟨hc', [s], hs, .cons hacc .nil⟩) houts ⟨t, rfl, ht⟩
  refine ⟨hds, ls.flatten, ?_, ?_⟩
  · rw [hnodes]
    refine List.Sublist.trans ?_ hsub
    rw [logAll_cons hinner, log_loop h.innerKind hivs hinits]
    exact (hls.trans (sublist_cons_self _ _)).trans (sublist_append_left _ _)
  · rw [← flatMap_singleton' (is.map (o, ·)), flatMap_map]
    exact forall₂_flatMap hall

/-- **One execution of the loops executes the accumulation for each pair of their variables.** -/
theorem accumulations {os : List Int64} (hos : n.head.ivs S = some os)
    (his : p.inner.head.ivs S = some is) (hfirst : S p.outerInit = some (.tensor t₀)) {T : Store}
    (hT : n.exec S = some T) :
    ∃ l, l.Sublist (n.log V S).tail ∧
      Forall₂ (Accumulates V p S (.tensor t₀)) (outerFirst os is) l := by
  obtain ⟨os', inits, outs, hos', hinits, -, houts, rfl⟩ := (exec_loop_iff h.outerKind).1 hT
  cases hos.symm.trans hos'
  obtain ⟨d, hd, rfl⟩ := (Head.inits_single h.outerInits).1 hinits
  cases hfirst.symm.trans hd
  obtain ⟨-, ls, hls, hall⟩ := sublist_walkLog
    (fun c iv => logAll (n.args ++ V) n.nodes (S.assign n.args (.index iv :: c)))
    (I := fun ds => ∃ u, ds = [.tensor u] ∧ t₀.Alike u)
    (Q := fun o l => Forall₂ (Accumulates V p S (.tensor t₀)) (is.map (o, ·)) l)
    (fun c o _ c' hc hstep => by
      obtain ⟨u, rfl, hu⟩ := hc
      exact h.accumulations_inner his hu hstep) houts ⟨t₀, rfl, .refl _ _⟩
  refine ⟨ls.flatten, ?_, forall₂_flatMap hall⟩
  rw [log_loop h.outerKind hos hinits]
  exact hls

end Nest

end ConvNest.Program
