/-
# What a plan to exchange loops has checked

`PlansSwap` lists what `swapPlan` asks of two loops, and `swapPlan_iff` reads the plan off it, in
both directions.
-/
import ConvNest.Conv.Swap
import ConvNest.Proofs.Accepted

namespace ConvNest.Conv

open Program Node

/-- What is asked of two loops that are to be exchanged, and the plan. -/
structure PlansSwap (g : Graph) (outer inner : OpId) (plan : SwapPlan) : Prop where
  outerLoop : (g.op outer).erased = false ∧ g.kind outer = .forLoop ∧ g.carriedCount outer ≠ 0
  innerLoop : (g.op inner).erased = false ∧ g.kind inner = .forLoop ∧ g.carriedCount inner ≠ 0
  nested : g.parentOp inner = some outer
  counts : g.carriedCount inner = g.carriedCount outer
  last : 2 ≤ (g.bodyOps outer).length ∧
    (g.bodyOps outer)[(g.bodyOps outer).length - 2]? = some inner
  yields : g.yielded outer = .ok (g.op inner).results
  threads : ∃ vs, g.carried outer = .ok vs ∧ g.inits inner = .ok vs ∧
    ∀ v ∈ vs, ∀ u ∈ (g.value v).uses, u.op = inner
  bounds : ∃ b, g.bounds inner = .ok b ∧
    ∀ v ∈ [b.lower, b.upper, b.step], definedIn g outer v = false
  accumulates : ∃ acc k ys r, accumulations g inner = .ok [(acc, k)] ∧ g.yielded inner = .ok ys ∧
    ys[k]? = some r ∧ (g.op acc).results[0]? = some r ∧ ∀ y ∈ ys, (g.ty y).isTensor = true
  plan : ∃ iv, g.inductionVar outer = .ok iv ∧ plan = ⟨outer, inner,
    (splitDependent g (.ofList [iv]) ((g.bodyOps outer).take ((g.bodyOps outer).length - 2))).1,
    (splitDependent g (.ofList [iv]) ((g.bodyOps outer).take ((g.bodyOps outer).length - 2))).2⟩

section Checks

variable {g : Graph} {outer inner i j : OpId} {u : Unit}

theorem carryingLoop_iff : (carryingLoop g (some i)).run = .ok (.ok j) ↔
    ((g.op i).erased = false ∧ g.kind i = .forLoop ∧ g.carriedCount i ≠ 0) ∧ i = j := by
  simp only [carryingLoop, Inquiry.run_bind_eq_ok, Inquiry.run_demand_eq_ok, Inquiry.run_pure_eq_ok]
  simp [and_assoc]

theorem checkThreading_iff : (checkThreading g outer inner).run = .ok (.ok u) ↔
    g.yielded outer = .ok (g.op inner).results ∧ ∃ vs, g.carried outer = .ok vs ∧
      g.inits inner = .ok vs ∧ ∀ v ∈ vs, ∀ u ∈ (g.value v).uses, u.op = inner := by
  simp only [checkThreading, Inquiry.run_bind_eq_ok, Inquiry.run_lift_eq_ok,
    Inquiry.run_demand_eq_ok, Inquiry.run_forM_eq_ok, beq_iff_eq]
  constructor
  · rintro ⟨ys, hys, -, rfl, vs, hvs, is, his, -, rfl, huses⟩
    exact ⟨hys, is, hvs, his, huses⟩
  · rintro ⟨hys, vs, hvs, his, huses⟩
    exact ⟨_, hys, (), rfl, vs, hvs, vs, his, (), rfl, huses⟩

theorem checkBounds_iff : (checkBounds g outer inner).run = .ok (.ok u) ↔
    ∃ b, g.bounds inner = .ok b ∧
      ∀ v ∈ [b.lower, b.upper, b.step], definedIn g outer v = false := by
  simp only [checkBounds, Inquiry.run_bind_eq_ok, Inquiry.run_lift_eq_ok,
    Inquiry.run_forM_demand_eq_ok]
  simp

theorem checkAccumulation_iff : (checkAccumulation g inner).run = .ok (.ok u) ↔
    ∃ acc k ys r, accumulations g inner = .ok [(acc, k)] ∧ g.yielded inner = .ok ys ∧
      ys[k]? = some r ∧ (g.op acc).results[0]? = some r ∧ ∀ y ∈ ys, (g.ty y).isTensor = true := by
  unfold checkAccumulation
  rw [Inquiry.run_bind_eq_ok]
  constructor
  · rintro ⟨found, hfound, h⟩
    rw [Inquiry.run_lift_eq_ok] at hfound
    match found, hfound, h with
    | [], _, h => cases h
    | _ :: _ :: _, _, h => cases h
    | [(acc, k)], hfound, h =>
      simp only [Inquiry.run_bind_eq_ok, Inquiry.run_lift_eq_ok, Inquiry.run_demand_eq_ok,
        Inquiry.run_forM_eq_ok, beq_iff_eq] at h
      obtain ⟨ys, hys, r, hr, r', hr', -, rfl, htys⟩ := h
      refine ⟨acc, k, ys, r, hfound, hys, itemAt_ok.1 hr, itemAt_ok.1 hr', fun y hy => ?_⟩
      exact forall_zipIdx (P := fun y => (g.ty y).isTensor = true) htys y hy
  · rintro ⟨acc, k, ys, r, hfound, hys, hr, hr', htys⟩
    refine ⟨_, Inquiry.run_lift_eq_ok.2 hfound, ?_⟩
    simp only [Inquiry.run_bind_eq_ok, Inquiry.run_lift_eq_ok, Inquiry.run_demand_eq_ok,
      Inquiry.run_forM_eq_ok, beq_iff_eq]
    refine ⟨ys, hys, r, itemAt_ok.2 hr, r, itemAt_ok.2 hr', (), rfl, fun p hp => ?_⟩
    exact htys p.1 (List.fst_mem_of_mem_zipIdx hp)

/-- **Two loops can be exchanged just when the checks say so.** -/
theorem swapPlan_iff {plan : SwapPlan} :
    (swapPlan g (some outer) (some inner)).run = .ok (.ok plan) ↔ PlansSwap g outer inner plan := by
  unfold swapPlan
  simp only [Inquiry.run_bind_eq_ok, Inquiry.run_lift_eq_ok, Inquiry.run_demand_eq_ok,
    Inquiry.run_pure_eq_ok, carryingLoop_iff, checkThreading_iff, checkBounds_iff,
    checkAccumulation_iff, beq_iff_eq, Bool.and_eq_true, decide_eq_true_eq]
  constructor
  · rintro ⟨_, ⟨houter, rfl⟩, _, ⟨hinner, rfl⟩, -, hnested, -, hcounts, -, hlast, -,
      ⟨hyields, hthreads⟩, -, hbounds, iv, hiv, -, hacc, rfl⟩
    exact ⟨houter, hinner, hnested, hcounts, hlast, hyields, hthreads, hbounds, hacc, iv, hiv, rfl⟩
  · rintro ⟨houter, hinner, hnested, hcounts, hlast, hyields, hthreads, hbounds, hacc, iv, hiv, rfl⟩
    exact ⟨_, ⟨houter, rfl⟩, _, ⟨hinner, rfl⟩, (), hnested, (), hcounts, (), hlast, (),
      ⟨hyields, hthreads⟩, (), hbounds, iv, hiv, (), hacc, rfl⟩

end Checks

end ConvNest.Conv
