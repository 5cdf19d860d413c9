/-
# Targets one after the other

A transformation is run on the targets of a handle one after the other.  `Walked` says that some
targets have been gone through, and what was answered for them.  A run that succeeds has gone
through all of them (`run_ok`); a run ends at the first target on which the transformation fails
(`run_failed`).
-/
import ConvNest.Proofs.HandleLists
import ConvNest.Transform.Run

namespace ConvNest.Transform

open Program

namespace Transformation

variable {t : Transformation} {f : FuncId} {target : OpId} {pre rest : List OpId} {e e₁ e' : Editor}
  {log : List (List OpId × Editor)}
variable {skipped : List Failure} {why : Failure}

/-- Targets have been gone through.  Erased ones are left out, and some are skipped; `log` holds
what was answered for the other ones, and the editor after each of them. -/
inductive Walked (t : Transformation) (f : FuncId) :
    List OpId → Editor → List (List OpId × Editor) → Editor → Prop
  | nil (e : Editor) : Walked t f [] e [] e
  | erased {target : OpId} {rest : List OpId} {e e' : Editor} {log : List (List OpId × Editor)}
      (h : (e.graph.op target).erased = true) (hrest : Walked t f rest e log e') :
      Walked t f (target :: rest) e log e'
  | skipped {target : OpId} {rest : List OpId} {e e₁ e' : Editor} {log : List (List OpId × Editor)}
      {why : Failure} (hlive : (e.graph.op target).erased = false)
      (h : t.applyTo f target e = .ok (.skipped why) e₁) (hrest : Walked t f rest e₁ log e') :
      Walked t f (target :: rest) e log e'
  | done {target : OpId} {rest : List OpId} {e e₁ e' : Editor} {log : List (List OpId × Editor)}
      {ops : List OpId} (hlive : (e.graph.op target).erased = false)
      (h : t.applyTo f target e = .ok (.done ops) e₁) (hrest : Walked t f rest e₁ log e') :
      Walked t f (target :: rest) e ((ops, e₁) :: log) e'

/-! ## 1. Runs that succeed -/

/-- **Targets that have all been answered for have been gone through.** -/
theorem applyAll_ok {targets : List OpId} {rows : List (List OpId)}
    (h : t.applyAll f targets e = .ok (skipped, .ok rows) e') :
    ∃ log, Walked t f targets e log e' ∧ rows = log.map (·.1) := by
  induction targets generalizing e skipped rows with
  | nil =>
    obtain ⟨hr, rfl⟩ := state_pure_eq_ok.1 h
    cases hr
    exact ⟨[], .nil e, rfl⟩
  | cons target rest ih =>
    obtain ⟨x, e₀, hx, h⟩ := state_bind_eq_ok.1 h
    obtain ⟨rfl, rfl⟩ := Edit.op_ok.1 hx
    split at h
    · next herased =>
      obtain ⟨log, hlog, hrows⟩ := ih h
      exact ⟨log, .erased herased hlog, hrows⟩
    · next hlive =>
      have hlive : (e.graph.op target).erased = false := by simpa using hlive
      obtain ⟨s, e₁, hs, h⟩ := state_bind_eq_ok.1 h
      cases s with
      | done ops =>
        obtain ⟨r, e₂, hr, h⟩ := state_bind_eq_ok.1 h
        obtain ⟨heq, rfl⟩ := state_pure_eq_ok.1 h
        obtain ⟨skipped', result⟩ := r
        cases result with
        | error why => cases heq
        | ok rows' =>
          cases heq
          obtain ⟨log, hlog, rfl⟩ := ih hr
          exact ⟨_, .done hlive hs hlog, rfl⟩
      | skipped why =>
        obtain ⟨r, e₂, hr, h⟩ := state_bind_eq_ok.1 h
        obtain ⟨heq, rfl⟩ := state_pure_eq_ok.1 h
        obtain ⟨skipped', result⟩ := r
        cases heq
        obtain ⟨log, hlog, hrows⟩ := ih hr
        exact ⟨log, .skipped hlive hs hlog, hrows⟩
      | failed why =>
        obtain ⟨heq, -⟩ := state_pure_eq_ok.1 h
        cases heq

/-- **A run that succeeds has gone through all targets**, has consumed the handle, and has tracked
what was answered. -/
theorem run_ok {h : Handle} {hs : List Handle} (hrun : t.run f h e = .ok ⟨skipped, .ok hs⟩ e') :
    ∃ x log e₁, lookup e.handles h = .ok x ∧ Walked t f x.ops e log e₁ ∧
      t.trackResults (log.map (·.1)) { e₁ with handles := e₁.handles.consume h } = .ok hs e' := by
  obtain ⟨e₀, e₀', hget, hrun⟩ := state_bind_eq_ok.1 hrun
  obtain ⟨rfl, rfl⟩ := state_get_eq_ok.1 hget
  unfold opsOf at hrun
  cases hx : lookup e.handles h with
  | error why =>
    rw [hx] at hrun
    cases (state_pure_eq_ok.1 hrun).1
  | ok x =>
    rw [hx] at hrun
    obtain ⟨r, e₁, hall, hrun⟩ := state_bind_eq_ok.1 hrun
    obtain ⟨skipped', result⟩ := r
    cases result with
    | error why => cases (state_pure_eq_ok.1 hrun).1
    | ok rows =>
      obtain ⟨log, hw, rfl⟩ := applyAll_ok hall
      obtain ⟨c, e₂, hconsume, hrun⟩ := state_bind_eq_ok.1 hrun
      cases hy : lookup e₁.handles h with
      | error why =>
        rw [consume_error hy] at hconsume
        cases hconsume
        cases (state_pure_eq_ok.1 hrun).1
      | ok y =>
        rw [consume_ok hy] at hconsume
        cases hconsume
        obtain ⟨hs', e₃, htrack, hrun⟩ := state_bind_eq_ok.1 hrun
        obtain ⟨heq, rfl⟩ := state_pure_eq_ok.1 hrun
        cases heq
        exact ⟨x, log, e₁, rfl, hw, htrack⟩

/-! ## 2. Runs that fail -/

theorem applyAll_failed (hlive : (e.graph.op target).erased = false)
    (h : t.applyTo f target e = .ok (.failed why) e') :
    t.applyAll f (target :: rest) e = .ok ([], .error why) e' := by
  refine state_bind_ok _ rfl ?_
  rw [if_neg (by simp [hlive])]
  exact state_bind_ok _ h rfl

/-- Going through targets comes before what follows. -/
theorem Walked.applyAll_error (hw : Walked t f pre e log e₁)
    (h : t.applyAll f rest e₁ = .ok (skipped, .error why) e') :
    ∃ skipped', t.applyAll f (pre ++ rest) e = .ok (skipped', .error why) e' := by
  induction hw with
  | nil => exact ⟨skipped, h⟩
  | erased herased _ ih =>
    obtain ⟨skipped', ih⟩ := ih h
    refine ⟨skipped', ?_⟩
    refine state_bind_ok _ rfl ?_
    rw [if_pos herased]
    exact ih
  | @skipped _ _ _ _ _ _ why' hlive happly _ ih =>
    obtain ⟨skipped', ih⟩ := ih h
    refine ⟨why' :: skipped', ?_⟩
    refine state_bind_ok _ rfl ?_
    rw [if_neg (by simp [hlive])]
    exact state_bind_ok _ happly (state_bind_ok _ ih rfl)
  | done hlive happly _ ih =>
    obtain ⟨skipped', ih⟩ := ih h
    refine ⟨skipped', ?_⟩
    refine state_bind_ok _ rfl ?_
    rw [if_neg (by simp [hlive])]
    exact state_bind_ok _ happly (state_bind_ok _ ih rfl)

/-- **A run ends at the first target on which the transformation fails.** -/
theorem run_failed {h : Handle} {x : Tracked} (hx : lookup e.handles h = .ok x)
    (htargets : x.ops = pre ++ target :: rest) (hw : Walked t f pre e log e₁)
    (hlive : (e₁.graph.op target).erased = false)
    (happly : t.applyTo f target e₁ = .ok (.failed why) e') :
    ∃ skipped, t.run f h e = .ok ⟨skipped, .error why⟩ e' := by
  have hlast : t.applyAll f (target :: rest) e₁ = .ok ([], .error why) e' :=
    applyAll_failed hlive happly
  obtain ⟨skipped, hall⟩ := hw.applyAll_error hlast
  refine ⟨skipped, ?_⟩
  have hops : opsOf e.handles h = .ok (pre ++ target :: rest) := by
    unfold opsOf
    rw [hx, ← htargets]
    rfl
  refine state_bind_ok e rfl ?_
  rw [hops]
  exact state_bind_ok _ hall rfl

end Transformation

end ConvNest.Transform
