/-
# Reading attempts

An attempt that ends with a result is read step by step, like an edit: what each step has done, and
the editor after it.
-/
import ConvNest.Attempt
import ConvNest.Proofs.GraphEdit

namespace ConvNest.Attempt

open Program

variable {α β : Type} {e e' : Editor} {a : α} {b : β}

theorem run_bind_eq_ok {x : Attempt α} {f : α → Attempt β} : (x >>= f).run e = .ok (.ok b) e' ↔
    ∃ a e₁, x.run e = .ok (.ok a) e₁ ∧ (f a).run e₁ = .ok (.ok b) e' := by
  rw [ExceptT.run_bind, state_bind_eq_ok]
  constructor
  · rintro ⟨r, e₁, hx, h⟩
    cases r with
    | ok a => exact ⟨a, e₁, hx, h⟩
    | error why => cases h
  · rintro ⟨a, e₁, hx, h⟩
    exact ⟨.ok a, e₁, hx, h⟩

theorem run_pure_eq_ok {c : α} : (pure c : Attempt α).run e = .ok (.ok a) e' ↔ c = a ∧ e = e' := by
  constructor
  · rintro ⟨⟩
    exact ⟨rfl, rfl⟩
  · rintro ⟨rfl, rfl⟩
    rfl

theorem run_edit_eq_ok {x : Edit α} :
    (liftM x : Attempt α).run e = .ok (.ok a) e' ↔ x e = .ok a e' := by
  show (x >>= fun c => pure (Except.ok c)) e = _ ↔ _
  rw [state_bind_eq_ok]
  constructor
  · rintro ⟨c, e₁, hx, ⟨⟩⟩
    exact hx
  · intro hx
    exact ⟨a, e', hx, rfl⟩

/-- An edit comes before the rest of an attempt, whatever that ends with. -/
theorem run_edit_bind_eq_ok {x : Edit α} {f : α → Attempt β} {r : Except Failure β} :
    ((liftM x : Attempt α) >>= f).run e = .ok r e' ↔
      ∃ a e₁, x e = .ok a e₁ ∧ (f a).run e₁ = .ok r e' := by
  rw [ExceptT.run_bind, state_bind_eq_ok]
  constructor
  · rintro ⟨c, e₁, hx, h⟩
    cases c with
    | ok a => exact ⟨a, e₁, run_edit_eq_ok.1 hx, h⟩
    | error why =>
      -- An edit has no failure of its own.
      obtain ⟨a, e₂, -, hc⟩ :=
        state_bind_eq_ok.1 (show (x >>= fun a => pure (Except.ok a)) e = _ from hx)
      cases hc
  · rintro ⟨a, e₁, hx, h⟩
    exact ⟨.ok a, e₁, run_edit_eq_ok.2 hx, h⟩

theorem run_inquiry_eq_ok {q : Inquiry α} :
    (liftM q : Attempt α).run e = .ok (.ok a) e' ↔ q.run = .ok (.ok a) ∧ e = e' :=
  Edit.lift_ok

end ConvNest.Attempt
