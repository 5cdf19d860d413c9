/-
# Computations that match

Two computations match if from related states both come to related results and related states, or
both end by the same fault.  `Matches` says so for computations with a state, and `Agree` for those
without one.  The rules follow the way a computation is put together, so that two computations which
are put together in the same way match as soon as their parts do.
-/
import ConvNest.Proofs.Outcome

namespace ConvNest.Program

open List

/-- Both computations come to related results, or both end by the same fault. -/
def Agree {α β : Type} (x : Except Fault α) (y : Except Fault β) (Q : α → β → Prop) : Prop :=
  (∃ a b, x = .ok a ∧ y = .ok b ∧ Q a b) ∨ ∃ f, x = .error f ∧ y = .error f

/-- From related states, both computations come to related results and states, or both end by the
same fault. -/
def Matches {σ τ α β : Type} (R : σ → τ → Prop) (x : EStateM Fault σ α) (y : EStateM Fault τ β)
    (Q : α → β → Prop) : Prop :=
  ∀ s t, R s t → (∃ a b s' t', x s = .ok a s' ∧ y t = .ok b t' ∧ R s' t' ∧ Q a b) ∨
    ∃ f s' t', x s = .error f s' ∧ y t = .error f t'

/-- What is related to an item of the second list. -/
theorem exists_of_forall₂_mem {α β : Type} {R : α → β → Prop} {xs : List α} {ys : List β}
    (h : Forall₂ R xs ys) {y : β} (hy : y ∈ ys) : ∃ x ∈ xs, R x y := by
  induction h with
  | nil => cases hy
  | cons hxy _ ih =>
    rcases mem_cons.1 hy with rfl | hy
    · exact ⟨_, mem_cons_self, hxy⟩
    · obtain ⟨x, hx, hr⟩ := ih hy
      exact ⟨x, mem_cons_of_mem _ hx, hr⟩

/-! ## 1. Without a state -/

namespace Agree

variable {α β γ δ : Type} {Q : α → β → Prop} {P : γ → δ → Prop} {x : Except Fault α}
  {y : Except Fault β}

theorem ok {a : α} {b : β} (h : Q a b) : Agree (.ok a) (.ok b) Q := .inl ⟨a, b, rfl, rfl, h⟩

theorem error (f : Fault) : Agree (.error f : Except Fault α) (.error f : Except Fault β) Q :=
  .inr ⟨f, rfl, rfl⟩

/-- The same computation. -/
theorem refl (x : Except Fault α) : Agree x x Eq := by
  cases x with
  | ok a => exact .ok rfl
  | error f => exact .error f

theorem bind {k : α → Except Fault γ} {l : β → Except Fault δ} (h : Agree x y Q)
    (hk : ∀ a b, Q a b → Agree (k a) (l b) P) : Agree (x >>= k) (y >>= l) P := by
  rcases h with ⟨a, b, rfl, rfl, h⟩ | ⟨f, rfl, rfl⟩
  · exact hk a b h
  · exact .error f

/-- Results that are equal. -/
theorem eq {y : Except Fault α} (h : Agree x y Eq) : x = y := by
  rcases h with ⟨a, b, rfl, rfl, rfl⟩ | ⟨f, rfl, rfl⟩ <;> rfl

theorem present {a : Option α} {b : Option β} (h : Option.Rel Q a b) :
    Agree (Program.present a) (Program.present b) Q := by
  cases h with
  | some h => exact .ok h
  | none => exact .error _

variable {xs : List α} {ys : List β} (h : Forall₂ Q xs ys)

include h

theorem itemAt (k : Nat) : Agree (Program.itemAt xs k) (Program.itemAt ys k) Q := by
  induction h generalizing k with
  | nil => exact .error _
  | cons hx _ ih =>
    cases k with
    | zero => exact .ok hx
    | succ k => exact ih k

theorem firstItems (n : Int) :
    Agree (Program.firstItems xs n) (Program.firstItems ys n) (Forall₂ Q) := by
  unfold Program.firstItems
  rw [h.length_eq]
  split
  · exact .ok (forall₂_take _ h)
  · exact .error _

theorem itemsAfter (n : Int) :
    Agree (Program.itemsAfter xs n) (Program.itemsAfter ys n) (Forall₂ Q) := by
  unfold Program.itemsAfter
  rw [h.length_eq]
  split
  · exact .ok (forall₂_drop _ h)
  · exact .error _

end Agree

/-! ## 2. With a state -/

namespace Matches

variable {σ τ α β γ δ : Type} {R : σ → τ → Prop} {Q : α → β → Prop} {P : γ → δ → Prop}
  {x : EStateM Fault σ α} {y : EStateM Fault τ β} {k : α → EStateM Fault σ γ}
  {l : α → EStateM Fault τ δ}

section

variable {k : α → EStateM Fault σ γ} {l : β → EStateM Fault τ δ}

theorem pure {a : α} {b : β} (h : Q a b) :
    Matches R (pure a : EStateM Fault σ α) (pure b : EStateM Fault τ β) Q := fun s t hs =>
  .inl ⟨a, b, s, t, rfl, rfl, hs, h⟩

theorem throw (f : Fault) :
    Matches R (throw f : EStateM Fault σ α) (throw f : EStateM Fault τ β) Q := fun s t _ =>
  .inr ⟨f, s, t, rfl, rfl⟩

theorem mono {Q' : α → β → Prop} (h : Matches R x y Q) (hq : ∀ a b, Q a b → Q' a b) :
    Matches R x y Q' := by
  intro s t hs
  rcases h s t hs with ⟨a, b, s', t', hx, hy, hs', hab⟩ | h
  · exact .inl ⟨a, b, s', t', hx, hy, hs', hq a b hab⟩
  · exact .inr h

theorem bind (h : Matches R x y Q) (hk : ∀ a b, Q a b → Matches R (k a) (l b) P) :
    Matches R (x >>= k) (y >>= l) P := by
  intro s t hs
  simp only [Bind.bind, EStateM.bind]
  rcases h s t hs with ⟨a, b, s', t', hx, hy, hs', hab⟩ | ⟨f, s', t', hx, hy⟩
  · rw [hx, hy]
    exact hk a b hab s' t' hs'
  · rw [hx, hy]
    exact .inr ⟨f, s', t', rfl, rfl⟩

/-- Parts that come to the same result. -/
theorem same {y : EStateM Fault τ α} {l : α → EStateM Fault τ δ} (h : Matches R x y Eq)
    (hk : ∀ a, Matches R (k a) (l a) P) : Matches R (x >>= k) (y >>= l) P :=
  h.bind fun a _ heq => heq ▸ hk a

theorem throw_bind (f : Fault) :
    Matches R ((MonadExcept.throw f : EStateM Fault σ α) >>= k)
      ((MonadExcept.throw f : EStateM Fault τ β) >>= l) P := fun s t _ =>
  .inr ⟨f, s, t, rfl, rfl⟩

end

theorem lift {x : Except Fault α} {y : Except Fault β} (h : Agree x y Q) :
    Matches R (liftM x : EStateM Fault σ α) (liftM y : EStateM Fault τ β) Q := by
  rcases h with ⟨a, b, rfl, rfl, h⟩ | ⟨f, rfl, rfl⟩
  · exact .pure h
  · exact .throw f

theorem read {x : Except Fault α} {y : Except Fault β} {l : β → EStateM Fault τ δ} (h : Agree x y Q)
    (hk : ∀ a b, Q a b → Matches R (k a) (l b) P) :
    Matches R (liftM x >>= k) (liftM y >>= l) P :=
  .bind (.lift h) hk

/-- The same part, without a state. -/
theorem ask {x : Except Fault α} (hk : ∀ a, Matches R (k a) (l a) P) :
    Matches R (liftM x >>= k) (liftM x >>= l) P :=
  .same (.lift (.refl x)) hk

/-- A step that reads the state. -/
theorem get_bind {k : σ → EStateM Fault σ α} {l : τ → EStateM Fault τ β}
    (h : ∀ s t, R s t → Matches R (k s) (l t) Q) : Matches R (get >>= k) (get >>= l) Q :=
    fun s t hs =>
  h s t hs s t hs

/-- A step that sets the state. -/
theorem set {a : σ} {b : τ} (h : R a b) :
    Matches R (set a : EStateM Fault σ PUnit) (set b : EStateM Fault τ PUnit) Eq := fun _ _ _ =>
  .inl ⟨⟨⟩, ⟨⟩, a, b, rfl, rfl, h, rfl⟩

/-- A step that reads the state and changes it. -/
theorem of_states {a : σ → α} {b : τ → β} {f : σ → σ} {k : τ → τ}
    (hx : ∀ s, x s = .ok (a s) (f s)) (hy : ∀ t, y t = .ok (b t) (k t))
    (h : ∀ s t, R s t → R (f s) (k t) ∧ Q (a s) (b t)) : Matches R x y Q := fun s t hs =>
  .inl ⟨a s, b t, f s, k t, hx s, hy t, (h s t hs).1, (h s t hs).2⟩

/-- A part that may be left out, before the rest. -/
theorem part {c : Prop} [Decidable c] {a : α} {u : EStateM Fault σ γ} {v : EStateM Fault τ δ}
    (hrest : ∀ a, Matches R (k a) (l a) P) (h : (∀ a, Matches R (k a) (l a) P) → Matches R u v P) :
    Matches R (if c then Pure.pure a >>= k else u) (if c then Pure.pure a >>= l else v) P := by
  split
  · exact .same (.pure rfl) hrest
  · exact h hrest

/-- Walks whose steps come to the same results. -/
theorem foldlM {f : α → γ → EStateM Fault σ α} {k : α → γ → EStateM Fault τ α}
    (h : ∀ a x, Matches R (f a x) (k a x) Eq) (xs : List γ) (a : α) :
    Matches R (xs.foldlM f a) (xs.foldlM k a) Eq := by
  induction xs generalizing a with
  | nil => exact .pure rfl
  | cons x xs ih =>
    exact .same (h a x) ih

variable {P : α → γ → Prop} {f : α → EStateM Fault σ β} {xs : List α} {ys : List γ}
  (h : Forall₂ P xs ys)

include h

theorem mapM {Q : β → δ → Prop} {k : γ → EStateM Fault τ δ}
    (hf : ∀ a c, P a c → Matches R (f a) (k c) Q) :
    Matches R (xs.mapM f) (ys.mapM k) (Forall₂ Q) := by
  induction h with
  | nil =>
    exact .pure .nil
  | cons hx _ ih =>
    simp only [mapM_cons]
    exact .bind (hf _ _ hx) fun b d hb => .bind ih fun bs ds hbs => .pure (.cons hb hbs)

/-- Answers that are equal. -/
theorem mapM_eq {k : γ → EStateM Fault τ β} (hf : ∀ a c, P a c → Matches R (f a) (k c) Eq) :
    Matches R (xs.mapM f) (ys.mapM k) Eq :=
  (mapM h hf).mono fun _ _ h => forall₂_eq_eq_eq ▸ h

omit h in
theorem mapM_same {k : α → EStateM Fault τ β} (hf : ∀ a, Matches R (f a) (k a) Eq) (xs : List α) :
    Matches R (xs.mapM f) (xs.mapM k) Eq :=
  mapM_eq (forall₂_same.2 fun _ _ => rfl) fun a _ heq => heq ▸ hf a

end Matches

end ConvNest.Program
