/-
# Every run of a pool

Whatever happens in a run, and in whatever order, the tasks of a pool start in the order of their
numbers, each of them once, and no more of them run at a time than there is room for.  What the pool
has seen decides how the run ends: `Sound` says how the counters, the recorded failure and the phase
belong together, and every step keeps it (`step_sound`).

A run comes to an end: a step that is not a cancellation takes away some of the work that is left
(`work`), and as long as the pool has not returned there is such a step.
-/
import ConvNest.Pool
import Mathlib.Data.List.Basic

namespace ConvNest.Pool

open List

variable {ε : Type} {j : Job ε} {s t : State ε} {a : Action}

/-- The tasks that come to run when the actions are taken, in the order in which they do. -/
def launches (j : Job ε) : State ε → List Action → List Nat
  | _, [] => []
  | s, a :: as =>
    match step j s a with
    | some t => t.running.filter (· ∉ s.running) ++ launches j t as
    | none => []

/-! ## 1. What every step keeps -/

/-- What a pool that does this next has seen. -/
def Seen (j : Job ε) (s : State ε) : Phase ε → Prop
  | .poll => True
  | .examine | .launch => s.started < j.count
  | .drain true => s.cancelled = true
  | .drain false => s.started = j.count ∨ s.failure.isSome = true
  | .returned (.ok _) => s.running = [] ∧ s.started = j.count ∧ s.failure = none
  | .returned (.error (.interrupted k n)) =>
    s.running = [] ∧ s.cancelled = true ∧ k = s.started ∧ n = j.count
  | .returned (.error (.failed e)) => s.running = [] ∧ s.failure = some e

/-- The counters, the recorded failure and the phase of a run belong together. -/
structure Sound (j : Job ε) (s : State ε) : Prop where
  count : s.started ≤ j.count
  tasks : (s.running ++ s.finished).Perm (List.range s.started)
  room : s.running.length ≤ j.room
  failure : s.failure = s.finished.findSome? j.failure
  seen : Seen j s s.phase

/-- The steps to the end of a phase in which nothing is started any more. -/
def Phase.rest : Phase ε → Nat
  | .poll => 4
  | .examine => 3
  | .launch => 2
  | .drain _ => 1
  | .returned _ => 0

/-- How much is left to do. -/
def work (j : Job ε) (s : State ε) : Nat :=
  4 * (j.count - s.started) + s.running.length + s.phase.rest

theorem sound_initial (j : Job ε) (c : Bool) : Sound j (initial c) :=
  ⟨Nat.zero_le _, .nil, Nat.zero_le _, rfl, trivial⟩

/-- The pool goes on to what it does next. -/
theorem Sound.turn (h : Sound j s) {p : Phase ε} (hrest : p.rest < s.phase.rest)
    (hp : Seen j { s with phase := p } p) :
    Sound j { s with phase := p } ∧ work j { s with phase := p } < work j s :=
  ⟨⟨h.count, h.tasks, h.room, h.failure, hp⟩, Nat.add_lt_add_left hrest _⟩

/-- What a step of the pool itself does: only a launch changes which tasks run. -/
theorem advance_sound (h : Sound j s) (ht : advance j s = some t) :
    (Sound j t ∧ work j t < work j s) ∧ (t.started = s.started ∧ t.running = s.running ∨
      t.started = s.started + 1 ∧ t.running = s.running ++ [s.started] ∧ s.phase = .launch) := by
  have hseen := h.seen
  unfold advance at ht
  cases hp : s.phase with
  | poll =>
    rw [hp] at ht
    dsimp only at ht
    split at ht
    · next hlt =>
      cases ht
      refine ⟨h.turn ?_ ?_, .inl ⟨rfl, rfl⟩⟩ <;> cases hc : s.cancelled <;>
        simp [hp, Phase.rest, Seen, hlt]
    · next hge =>
      cases ht
      exact ⟨h.turn (by simp [hp, Phase.rest])
        (.inl (Nat.le_antisymm h.count (Nat.le_of_not_lt hge))), .inl ⟨rfl, rfl⟩⟩
  | examine =>
    rw [hp] at ht hseen
    cases ht
    refine ⟨h.turn ?_ ?_, .inl ⟨rfl, rfl⟩⟩ <;> cases hf : s.failure.isSome
    · simp [hp, Phase.rest]
    · simp [hp, Phase.rest]
    · exact hseen
    · exact .inr hf
  | launch =>
    rw [hp] at ht hseen
    dsimp only at ht
    split at ht
    · next hlt =>
      cases ht
      have hmore : s.started < j.count := hseen
      refine ⟨⟨⟨hmore, ?_, by rw [length_append]; exact hlt, h.failure, trivial⟩, ?_⟩,
        .inr ⟨rfl, rfl, rfl⟩⟩
      · show (s.running ++ [s.started] ++ s.finished).Perm _
        rw [append_assoc, singleton_append, range_succ]
        exact perm_middle.trans ((perm_append_singleton _ _).symm.trans (h.tasks.append_right _))
      · simp only [work, hp, Phase.rest, length_append, length_singleton]
        omega
    · cases ht
  | drain b =>
    rw [hp] at ht hseen
    dsimp only at ht
    split at ht
    · next hnone =>
      cases ht
      have hnone := isEmpty_iff.1 hnone
      refine ⟨h.turn (by simp [hp, Phase.rest]) ?_, .inl ⟨rfl, rfl⟩⟩
      cases b with
      | true => exact ⟨hnone, hseen, rfl, rfl⟩
      | false =>
        cases hf : s.failure with
        | none => exact ⟨hnone, hseen.resolve_right (by simp [hf]), rfl⟩
        | some e => exact ⟨hnone, rfl⟩
    · cases ht
  | returned r =>
    rw [hp] at ht
    cases ht

/-- A task that finishes leaves the running ones, and its failure is recorded if it is the first
one. -/
theorem finish_sound (h : Sound j s) {i : Nat} (hi : i ∈ s.running) :
    Sound j { s with
      running := s.running.erase i
      finished := s.finished ++ [i]
      failure := s.failure.or (j.failure i) } := by
  refine ⟨h.count, ?_, Nat.le_trans length_erase_le h.room, ?_, ?_⟩
  · refine .trans ?_ h.tasks
    rw [← append_assoc]
    exact (perm_append_singleton _ _).trans ((perm_cons_erase hi).symm.append_right _)
  · show s.failure.or (j.failure i) = _
    rw [h.failure, findSome?_append, findSome?_singleton]
  · have hseen := h.seen
    have hne : s.running ≠ [] := ne_nil_of_mem hi
    cases hp : s.phase with
    | poll => trivial
    | examine | launch =>
      rw [hp] at hseen
      exact hseen
    | drain b =>
      rw [hp] at hseen
      cases b with
      | true => exact hseen
      | false => exact hseen.imp_right fun hf => by simp [hf]
    | returned r =>
      rw [hp] at hseen
      rcases r with (_ | _) | _ <;> exact absurd hseen.1 hne

theorem cancel_sound (h : Sound j s) : Sound j { s with cancelled := true } := by
  refine ⟨h.count, h.tasks, h.room, h.failure, ?_⟩
  have hseen := h.seen
  rcases hp : s.phase with _ | _ | _ | (_ | _) | (⟨_ | _⟩ | _) <;> simp_all [Seen]

/-- What one step of a run comes to. -/
structure Next (j : Job ε) (s : State ε) (a : Action) (t : State ε) : Prop where
  sound : Sound j t
  work : work j t + (if a = .cancel then 0 else 1) ≤ work j s
  halted : s.phase.rest ≤ 1 → t.phase.rest ≤ 1 ∧ t.started = s.started
  launched : ∃ n, t.started = s.started + n ∧ t.running.filter (· ∉ s.running) = range' s.started n

/-- **Every step keeps a run sound, and launches the next task or none.** -/
theorem step_sound (h : Sound j s) (ht : step j s a = some t) : Next j s a t := by
  cases a with
  | advance =>
    simp only [step] at ht
    split at ht
    · cases ht
    obtain ⟨⟨hsound, hwork⟩, hcase⟩ := advance_sound h ht
    rcases hcase with ⟨hs, hr⟩ | ⟨hs, hr, hp⟩
    · exact ⟨hsound, hwork, fun hrest => ⟨by simp only [Pool.work, hr] at hwork; omega, hs⟩, 0, hs,
        by simp [hr]⟩
    · have hnew : s.started ∉ s.running := fun hmem =>
        absurd (mem_range.1 (h.tasks.subset (mem_append_left _ hmem))) (Nat.lt_irrefl _)
      exact ⟨hsound, hwork, fun hrest => by simp [hp, Phase.rest] at hrest, 1, hs,
        by simp [hr, hnew]⟩
  | finish i =>
    simp only [step] at ht
    split at ht
    · next hi =>
      have hi : i ∈ s.running := by simpa using hi
      cases ht
      have hlen := length_erase_of_mem hi
      have hpos := length_pos_of_mem hi
      refine ⟨finish_sound h hi, by simp only [Pool.work, reduceCtorEq, if_false]; omega,
        fun hrest => ⟨hrest, rfl⟩, 0, rfl, ?_⟩
      exact filter_eq_nil_iff.2 fun k hk => by simpa using mem_of_mem_erase hk
    · cases ht
  | cancel =>
    cases ht
    exact ⟨cancel_sound h, Nat.le_refl _, fun hrest => ⟨hrest, rfl⟩, 0, rfl, by simp⟩

/-! ## 2. Whole runs -/

variable {as : List Action}

/-- What a whole run keeps, and the tasks that it launches. -/
theorem run_sound (h : Sound j s) (ht : as.foldlM (step j) s = some t) :
    Sound j t ∧ work j t + (as.filter (· ≠ .cancel)).length ≤ work j s ∧
      (s.phase.rest ≤ 1 → launches j s as = []) ∧
      ∃ n, t.started = s.started + n ∧ launches j s as = range' s.started n := by
  induction as generalizing s with
  | nil =>
    cases ht
    exact ⟨h, Nat.le_refl _, fun _ => rfl, 0, rfl, rfl⟩
  | cons a as ih =>
    obtain ⟨u, hu, ht⟩ := Option.bind_eq_some_iff.1 ht
    obtain ⟨hsound, hwork, hhalted, n, hn, hlaunched⟩ := step_sound h hu
    obtain ⟨hend, hrest, hnone, m, hm, hlater⟩ := ih hsound ht
    have hcons : launches j s (a :: as) = range' s.started n ++ launches j u as := by
      simp only [launches, hu, hlaunched]
    refine ⟨hend, ?_, fun hs => ?_, n + m, by omega, ?_⟩
    · by_cases ha : a = .cancel <;> simp [ha] at hwork hrest ⊢ <;> omega
    · obtain ⟨hu, hsame⟩ := hhalted hs
      obtain rfl : n = 0 := by omega
      rw [hcons, hnone hu]
      rfl
    · rw [hcons, hlater, hn, range'_append_1]

/-- A pool that has not returned can go on, or waits for a task that runs. -/
theorem exists_step (j : Job ε) (s : State ε) :
    (∃ r, s.phase = .returned r) ∨ ∃ a, a ≠ .cancel ∧ (step j s a).isSome = true := by
  cases hr : s.running with
  | cons i is => exact .inr ⟨.finish i, by simp, by simp [step, hr]⟩
  | nil =>
    have hroom : 0 < j.room := Nat.lt_of_lt_of_le Nat.zero_lt_one (Nat.le_max_right _ _)
    cases hp : s.phase with
    | returned r => exact .inl ⟨r, rfl⟩
    | poll =>
      refine .inr ⟨.advance, by simp, ?_⟩
      by_cases hc : s.started < j.count <;> simp [step, Job.blocked, advance, hr, hp, hc]
    | _ => exact .inr ⟨.advance, by simp, by simp [step, Job.blocked, advance, hr, hp, hroom]⟩

/-- **In every run the tasks start in order, each once and with room for it; the pool returns when
they have finished, and what it returns is what they came to.**  The pool starts a task only in one
phase, when a place is free, and counts it there; whatever the tasks do in between changes neither
the count nor the phase.  No failure is forgotten once it is recorded, and every step but a
cancellation uses up some of the work, of which there are four steps for each task and four more. -/
theorem run_starts_once {c : Bool} (h : as.foldlM (step j) (initial c) = some s) :
    (launches j (initial c) as = List.range s.started ∧ s.started ≤ j.count) ∧
    s.running.length ≤ max j.parallelism 1 ∧
    (s.phase = .examine → s.failure.isSome = true → ∀ bs t,
      (Action.advance :: bs).foldlM (step j) s = some t → launches j s (.advance :: bs) = []) ∧
    (∀ r, s.phase = .returned r → s.finished.Perm (List.range s.started)) ∧
    (s.phase = .returned (.ok ()) → s.started = j.count ∧ ∀ i < j.count, j.failure i = none) ∧
    (∀ stop, s.phase = .returned (.error stop) →
      stop = .interrupted s.started j.count ∧ s.cancelled = true ∨
        ∃ e, stop = .failed e ∧ s.finished.findSome? j.failure = some e) ∧
    (as.filter (· ≠ .cancel)).length ≤ 4 * j.count + 4 ∧
    ((∃ r, s.phase = .returned r) ∨ ∃ a, a ≠ .cancel ∧ (step j s a).isSome = true) := by
  obtain ⟨hs, hwork, -, n, hn, hlaunches⟩ := run_sound (sound_initial j c) h
  have hnone (r) (hr : s.phase = .returned r) : s.running = [] := by
    have hseen := hs.seen
    rw [hr] at hseen
    rcases r with (_ | _) | _ <;> exact hseen.1
  have hfinished (r) (hr : s.phase = .returned r) : s.finished.Perm (List.range s.started) := by
    simpa [hnone r hr] using hs.tasks
  refine ⟨⟨?_, hs.count⟩, hs.room, fun hp hf bs t ht => ?_, hfinished, fun hr => ?_,
    fun stop hr => ?_, ?_, exists_step j s⟩
  · obtain rfl : s.started = n := by simpa [initial] using hn
    exact hlaunches.trans range_eq_range'.symm
  · rw [foldlM_cons] at ht
    obtain ⟨u, hu, ht⟩ := Option.bind_eq_some_iff.1 ht
    have hadvance := hu
    simp only [step] at hadvance
    split at hadvance
    · cases hadvance
    · simp only [advance, hp, hf, if_true] at hadvance
      obtain rfl := Option.some.inj hadvance
      have hnext := (run_sound (step_sound hs hu).sound ht).2.2.1 (by simp [Phase.rest])
      simp [launches, hu, hnext]
  · have hseen := hs.seen
    rw [hr] at hseen
    obtain ⟨-, hall, hnofail⟩ := hseen
    refine ⟨hall, fun i hi => ?_⟩
    rw [hs.failure, findSome?_eq_none_iff] at hnofail
    exact hnofail i ((hfinished _ hr).mem_iff.2 (mem_range.2 (hall ▸ hi)))
  · have hseen := hs.seen
    rw [hr] at hseen
    rcases stop with ⟨k, n⟩ | e
    · obtain ⟨-, hc, rfl, rfl⟩ := hseen
      exact .inl ⟨rfl, hc⟩
    · exact .inr ⟨e, rfl, hs.failure ▸ hseen.2⟩
  · have : work j (initial c) = 4 * j.count + 4 := rfl
    omega

/-- Four tasks, two at a time, of which the second fails before the first has finished. -/
theorem run_starts_once_pair :
    let j : Job String := ⟨4, 2, fun i => if i = 1 then some "boom" else none⟩
    launches j (initial false) [.advance, .advance, .advance, .advance, .advance, .advance,
      .finish 1, .advance, .advance, .finish 0, .advance] = [0, 1] :=
  (run_starts_once (s := ⟨2, [], [1, 0], some "boom", false, .returned (.error (.failed "boom"))⟩)
    rfl).1.1

end ConvNest.Pool
