/-
# Outcomes of computations

A computation of this project ends with a result or with a fault, and may carry a state.  The lemmas
of this file take such a computation apart: what `x >>= f` gives is what `f` gives on what `x`
gives.

`outcome x s` is what is left of a computation when faults are not told apart: nothing, or the
result with the new state.  Two computations are compared through their outcomes, by `Option.Rel`.
-/
import ConvNest.Affine.Eval
import ConvNest.Program.Edit
import Mathlib.Data.List.Forall2

namespace ConvNest

open Program List

/-! ## 1. Computations without a state -/

section Stateless

variable {ε α β : Type} {xs : List α} {a : α}

section

variable {f : α → Except ε β} {x : Except ε α} {b : β}

theorem except_bind_eq_ok :
    (x >>= f) = .ok b ↔ ∃ a, x = .ok a ∧ f a = .ok b := by
  cases x with
  | error e => simp [bind, Except.bind]
  | ok a => simp [bind, Except.bind]

theorem except_bind_ok (a : α) (hx : x = .ok a) (hf : f a = .ok b) :
    (x >>= f) = .ok b :=
  except_bind_eq_ok.2 ⟨a, hx, hf⟩

theorem except_pure_eq_ok {a b : α} : (pure a : Except ε α) = .ok b ↔ a = b := by
  simp [pure, Except.pure]

/-- Lists that are computed item by item. -/
theorem except_mapM_eq_ok {ys : List β} :
    xs.mapM f = .ok ys ↔ Forall₂ (fun x y => f x = .ok y) xs ys := by
  induction xs generalizing ys with
  | nil =>
    rw [mapM_nil, except_pure_eq_ok, forall₂_nil_left_iff, eq_comm]
  | cons x xs ih =>
    simp only [mapM_cons, except_bind_eq_ok, except_pure_eq_ok, forall₂_cons_left_iff, ih]
    constructor
    · rintro ⟨y, hy, zs, hzs, rfl⟩
      exact ⟨y, zs, hy, hzs, rfl⟩
    · rintro ⟨y, zs, hy, hzs, rfl⟩
      exact ⟨y, hy, zs, hzs, rfl⟩

theorem except_mapM_total (h : ∀ x ∈ xs, ∃ y, f x = .ok y) : ∃ ys, xs.mapM f = .ok ys := by
  induction xs with
  | nil => exact ⟨[], rfl⟩
  | cons x xs ih =>
    obtain ⟨y, hy⟩ := h x mem_cons_self
    obtain ⟨ys, hys⟩ := ih fun z hz => h z (mem_cons_of_mem _ hz)
    exact ⟨y :: ys, by rw [mapM_cons, hy, hys]; rfl⟩

end

/-- Checks that are made one by one. -/
theorem except_forM_eq_ok {f : α → Except ε Unit} {u : Unit} :
    xs.forM f = .ok u ↔ ∀ x ∈ xs, f x = .ok () := by
  induction xs with
  | nil => simp [pure, Except.pure]
  | cons x xs ih =>
    have step : (x :: xs).forM f = (f x >>= fun _ => xs.forM f) := rfl
    rw [step, except_bind_eq_ok]
    simp only [ih, mem_cons, forall_eq_or_imp]
    constructor
    · rintro ⟨⟨⟩, h⟩
      exact h
    · exact fun h => ⟨(), h⟩

@[simp] theorem toOption_bind (x : Except ε α) (f : α → Except ε β) :
    (x >>= f).toOption = x.toOption.bind fun a => (f a).toOption := by
  cases x <;> rfl

@[simp] theorem toOption_ok (a : α) : (Except.ok a : Except ε α).toOption = some a := rfl

@[simp] theorem toOption_error (e : ε) : (Except.error e : Except ε α).toOption = none := rfl

@[simp] theorem toOption_mapError {ε' : Type} (f : ε → ε') (x : Except ε α) :
    (x.mapError f).toOption = x.toOption := by
  cases x <;> rfl

theorem toOption_eq_some {x : Except ε α} : x.toOption = some a ↔ x = .ok a := by
  cases x <;> simp

theorem toOption_itemAt (xs : List α) (k : Nat) : (itemAt xs k).toOption = xs[k]? := by
  unfold itemAt
  cases xs[k]? <;> rfl

theorem toOption_present (x : Option α) : (present x).toOption = x := by
  cases x <;> rfl

theorem itemAt_ok {k : Nat} {x : α} : itemAt xs k = .ok x ↔ xs[k]? = some x := by
  rw [← toOption_eq_some, toOption_itemAt]

theorem present_ok {x : Option α} : present x = .ok a ↔ x = some a := by
  rw [← toOption_eq_some, toOption_present]

section

variable {xs ys : List α} {k : Int}

theorem itemsAfter_ok :
    itemsAfter xs k = .ok ys ↔ 0 ≤ k ∧ k ≤ xs.length ∧ ys = xs.drop k.toNat := by
  unfold itemsAfter
  split
  · simp only [Except.ok.injEq]
    grind
  · simp only [reduceCtorEq]
    grind

theorem firstItems_ok :
    firstItems xs k = .ok ys ↔ 0 ≤ k ∧ k ≤ xs.length ∧ ys = xs.take k.toNat := by
  unfold firstItems
  split
  · simp only [Except.ok.injEq]
    grind
  · simp only [reduceCtorEq]
    grind

theorem pick_eq_ok {p : Int64} {x : α} :
    Affine.pick xs p = .ok x ↔ 0 ≤ p.toInt ∧ xs[p.toInt.toNat]? = some x := by
  unfold Affine.pick Word.at?
  rw [← Int.not_lt, ← Int64.toInt_zero, ← Int64.lt_iff_toInt_lt]
  by_cases hneg : p < 0
  · simp [hneg]
  · simp only [hneg]
    cases xs[p.toInt.toNat]? <;> simp

end

end Stateless

/-! ## 2. Computations with a state -/

section Stateful

variable {ε σ α β : Type} {x : EStateM ε σ α} {f : α → EStateM ε σ β} {s s' t : σ} {b : β} {a : α}

theorem state_bind_eq_ok :
    (x >>= f) s = .ok b s' ↔ ∃ a t, x s = .ok a t ∧ f a t = .ok b s' := by
  constructor
  · intro h
    simp only [bind, EStateM.bind] at h
    cases hx : x s with
    | ok a t => exact ⟨a, t, rfl, by simpa [hx] using h⟩
    | error e t => simp [hx] at h
  · rintro ⟨a, t, hx, hf⟩
    simp [bind, EStateM.bind, hx, hf]

theorem state_bind_ok (a : α) (hx : x s = .ok a t) (hf : f a t = .ok b s') :
    (x >>= f) s = .ok b s' :=
  state_bind_eq_ok.2 ⟨a, t, hx, hf⟩

theorem state_pure_eq_ok {b : α} :
    (pure a : EStateM ε σ α) s = .ok b s' ↔ a = b ∧ s = s' := by
  simp [pure, EStateM.pure]

theorem state_throw_ne_ok {e : ε} {b : α} :
    ¬ (throw e : EStateM ε σ α) s = .ok b s' := by
  intro h
  cases h

theorem state_get_eq_ok : (get : EStateM ε σ σ) s = .ok t s' ↔ s = t ∧ s = s' := by
  show EStateM.Result.ok s s = .ok t s' ↔ _
  simp

theorem state_modify_eq_ok {g : σ → σ} {u : PUnit} :
    (modify g : EStateM ε σ PUnit) s = .ok u s' ↔ g s = s' := by
  show EStateM.Result.ok _ (g s) = .ok u s' ↔ _
  simp

/-- What a computation gives, when faults are not told apart. -/
def outcome (x : EStateM ε σ α) (s : σ) : Option (α × σ) :=
  match x s with
  | .ok a t => some (a, t)
  | .error _ _ => none

theorem outcome_eq_some :
    outcome x s = some (a, t) ↔ x s = .ok a t := by
  unfold outcome
  cases x s <;> simp

@[simp] theorem outcome_pure (a : α) (s : σ) : outcome (pure a : EStateM ε σ α) s = some (a, s) :=
  rfl

@[simp] theorem outcome_throw (e : ε) (s : σ) : outcome (throw e : EStateM ε σ α) s = none := rfl

@[simp] theorem outcome_bind (x : EStateM ε σ α) (f : α → EStateM ε σ β) (s : σ) :
    outcome (x >>= f) s = (outcome x s).bind fun p => outcome (f p.1) p.2 := by
  simp only [outcome, bind, EStateM.bind]
  cases x s <;> rfl

@[simp] theorem outcome_get (s : σ) : outcome (get : EStateM ε σ σ) s = some (s, s) := rfl

@[simp] theorem outcome_modify (g : σ → σ) (s : σ) :
    outcome (modify g : EStateM ε σ PUnit) s = some ((), g s) := rfl

@[simp] theorem outcome_lift (x : Except Fault α) (s : σ) :
    outcome (liftM x : EStateM Fault σ α) s = x.toOption.map (·, s) := by
  cases x <;> rfl

theorem outcome_mapM (f : α → EStateM ε σ β) (g : α → Option β) (s : σ)
    (h : ∀ a, outcome (f a) s = (g a).map (·, s)) (xs : List α) :
    outcome (xs.mapM f) s = (xs.mapM g).map (·, s) := by
  induction xs with
  | nil => simp
  | cons x xs ih =>
    simp only [mapM_cons, outcome_bind, h]
    cases g x with
    | none => rfl
    | some b =>
      simp only [Option.map_some, Option.bind_some, ih]
      cases xs.mapM g <;> rfl

end Stateful

/-! ## 3. Comparing outcomes -/

section Compare

variable {α β γ δ ι : Type}

variable {R : α → β → Prop} {x : Option α} {Q : γ → δ → Prop} {y : Option β} {xs : List ι} {a : α}
  {b : β} {f : ι → Option α}

theorem rel_bind {f : α → Option γ} {g : β → Option δ} (h : Option.Rel R x y)
    (hf : ∀ a b, R a b → Option.Rel Q (f a) (g b)) :
    Option.Rel Q (x.bind f) (y.bind g) := by
  cases h with
  | some hr => exact hf _ _ hr
  | none => exact .none

theorem rel_mono {Q : α → β → Prop} (h : Option.Rel R x y) (hq : ∀ a b, R a b → Q a b) :
    Option.Rel Q x y := by
  cases h with
  | some hr => exact .some (hq _ _ hr)
  | none => exact .none

theorem rel_refl : Option.Rel Eq x x := by
  cases x with
  | none => exact .none
  | some a => exact .some rfl

theorem rel_eq {y : Option α} (h : Option.Rel Eq x y) : x = y := by
  cases h with
  | none => rfl
  | some h => rw [h]

/-- Computations that begin alike are compared by how they go on. -/
theorem rel_bind_same {f : α → Option γ} {g : α → Option δ}
    (hf : ∀ a, x = some a → Option.Rel Q (f a) (g a)) :
    Option.Rel Q (x.bind f) (x.bind g) := by
  cases x with
  | none => exact .none
  | some a => exact hf a rfl

theorem rel_mono_right {Q : α → β → Prop} (h : Option.Rel R x y)
    (hq : ∀ a b, y = some b → R a b → Q a b) :
    Option.Rel Q x y := by
  cases h with
  | some hr => exact .some (hq _ _ rfl hr)
  | none => exact .none

/-- A relation that each step of a walk keeps is kept by the walk. -/
theorem rel_foldlM {f : α → ι → Option α} {g : β → ι → Option β}
    (step : ∀ a b, R a b → ∀ x ∈ xs, Option.Rel R (f a x) (g b x)) (h : R a b) :
    Option.Rel R (xs.foldlM f a) (xs.foldlM g b) := by
  induction xs generalizing a b with
  | nil => exact .some h
  | cons x xs ih =>
    refine rel_bind (step a b h x mem_cons_self) fun a' b' h' => ?_
    exact ih (fun a b hab y hy => step a b hab y (mem_cons_of_mem x hy)) h'

theorem length_of_mapM {ys : List α} (h : xs.mapM f = some ys) :
    ys.length = xs.length := by
  induction xs generalizing ys with
  | nil =>
    cases h
    rfl
  | cons x xs ih =>
    rw [mapM_cons] at h
    obtain ⟨y, -, h⟩ := Option.bind_eq_some_iff.1 h
    obtain ⟨zs, hzs, h⟩ := Option.bind_eq_some_iff.1 h
    cases h
    simp [ih hzs]

theorem mapM_congr {g : ι → Option α} (h : ∀ x ∈ xs, f x = g x) :
    xs.mapM f = xs.mapM g := by
  induction xs with
  | nil => rfl
  | cons x xs ih =>
    rw [mapM_cons, mapM_cons, h x mem_cons_self,
      ih fun y hy => h y (mem_cons_of_mem x hy)]

/-- Lists that are computed item by item are compared item by item. -/
theorem rel_mapM {g : ι → Option β} (h : ∀ x ∈ xs, Option.Rel R (f x) (g x)) :
    Option.Rel (Forall₂ R) (xs.mapM f) (xs.mapM g) := by
  induction xs with
  | nil => exact .some .nil
  | cons x xs ih =>
    simp only [mapM_cons]
    refine rel_bind (h x mem_cons_self) fun a b hab => ?_
    exact rel_bind (ih fun y hy => h y (mem_cons_of_mem x hy)) fun as bs hs => .some (.cons hab hs)

/-- What each step of a walk keeps is kept by a walk that succeeds. -/
theorem foldlM_invariant {I : α → Prop} {f : α → ι → Option α}
    (step : ∀ a x b, x ∈ xs → I a → f a x = some b → I b) {b : α} (h : xs.foldlM f a = some b)
    (ha : I a) : I b := by
  induction xs generalizing a with
  | nil => exact Option.some.inj h ▸ ha
  | cons x xs ih =>
    obtain ⟨c, hc, h⟩ := Option.bind_eq_some_iff.1 h
    exact ih (fun a y b hy => step a y b (mem_cons_of_mem x hy)) h
      (step a x c mem_cons_self ha hc)

theorem toOption_foldlM {ε : Type} (f : α → ι → Except ε α) (xs : List ι) (a : α) :
    (xs.foldlM f a).toOption = xs.foldlM (fun a x => (f a x).toOption) a := by
  induction xs generalizing a with
  | nil => rfl
  | cons x xs ih =>
    rw [foldlM_cons, foldlM_cons, toOption_bind]
    exact congrArg _ (funext ih)

theorem rel_some_left (h : Option.Rel R (some a) y) :
    ∃ b, y = some b ∧ R a b := by
  cases h with
  | some hr => exact ⟨_, rfl, hr⟩

theorem rel_some_right (h : Option.Rel R x (some b)) : ∃ a, x = some a ∧ R a b := by
  cases h with
  | some hr => exact ⟨_, rfl, hr⟩

end Compare

end ConvNest
