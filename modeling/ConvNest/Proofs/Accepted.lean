/-
# Convolutions that are accepted

What `problemOf` asks of a convolution (`problemOf_iff`): the types of the operands are static
shapes of the extents of the problem, the input is as large as strides and filter ask for, and the
element types can be accumulated.
-/
import ConvNest.Conv.Operands
import ConvNest.Proofs.ConvSteps
import ConvNest.Proofs.Rewire
import ConvNest.Proofs.Verified

namespace ConvNest

open Program Schedule

/-! ## 1. Reading inquiries -/

namespace Inquiry

variable {α β ε : Type} {a : α} {u : Unit} {xs : List α}

theorem run_bind_eq_ok {x : ExceptT ε (Except Fault) α}
    {f : α → ExceptT ε (Except Fault) β} {b : β} :
    (x >>= f).run = .ok (.ok b) ↔ ∃ a, x.run = .ok (.ok a) ∧ (f a).run = .ok (.ok b) := by
  rw [ExceptT.run_bind]
  rcases x.run with e | e | a
  · exact ⟨fun h => (nomatch h), fun ⟨_, h, _⟩ => (nomatch h)⟩
  · exact ⟨fun h => (nomatch h), fun ⟨_, h, _⟩ => (nomatch h)⟩
  · constructor
    · intro h
      exact ⟨a, rfl, h⟩
    · rintro ⟨_, ⟨⟩, h⟩
      exact h

theorem run_pure_eq_ok {b : α} : (pure a : ExceptT ε (Except Fault) α).run = .ok (.ok b) ↔
    a = b := by
  exact ⟨fun h => Except.ok.inj (Except.ok.inj h), fun h => h ▸ rfl⟩

theorem run_lift_eq_ok {x : Except Fault α} :
    (liftM x : ExceptT ε (Except Fault) α).run = .ok (.ok a) ↔ x = .ok a := by
  cases x with
  | error e => exact ⟨fun h => (nomatch h), fun h => (nomatch h)⟩
  | ok b =>
    constructor
    · intro h
      exact congrArg Except.ok (Except.ok.inj (Except.ok.inj h))
    · rintro ⟨⟩
      rfl

theorem run_demand_eq_ok {c : Bool} {why : Failure} :
    (demand c why).run = .ok (.ok u) ↔ c = true := by
  cases c with
  | true => exact ⟨fun _ => rfl, fun _ => rfl⟩
  | false => exact ⟨fun h => (nomatch h), fun h => (nomatch h)⟩

theorem run_forM_eq_ok {f : α → Inquiry Unit} :
    (xs.forM f).run = .ok (.ok u) ↔ ∀ x ∈ xs, (f x).run = .ok (.ok ()) := by
  induction xs with
  | nil =>
    have step : ([] : List α).forM f = pure () := rfl
    rw [step, run_pure_eq_ok]
    simp
  | cons x xs ih =>
    have step : (x :: xs).forM f = (f x >>= fun _ => xs.forM f) := rfl
    rw [step, run_bind_eq_ok, List.forall_mem_cons, ← ih]
    exact ⟨fun ⟨⟨⟩, h⟩ => h, fun h => ⟨(), h⟩⟩

theorem run_forM_demand_eq_ok {c : α → Bool} {why : α → Failure} :
    (xs.forM fun x => demand (c x) (why x)).run = .ok (.ok u) ↔ ∀ x ∈ xs, c x = true := by
  simp only [run_forM_eq_ok, run_demand_eq_ok]

end Inquiry

/-! ## 2. Static shapes -/

namespace Conv

section Extents

variable {e : Element} {a b c d fh fw : Int64} {p : Problem}

theorem dimWord_ofSizes :
    dimWord (.ofSizes e [a, b, c, d]) 0 = .ok a ∧ dimWord (.ofSizes e [a, b, c, d]) 1 = .ok b ∧
    dimWord (.ofSizes e [a, b, c, d]) 2 = .ok c ∧ dimWord (.ofSizes e [a, b, c, d]) 3 = .ok d :=
  ⟨rfl, rfl, rfl, rfl⟩

theorem extents_ofSizes {e₁ e₂ : Element} {n₁ c₁ h w n₂ c₂ v : Int64} {s : Pair} :
    extents (.ofSizes e₁ [n₁, c₁, h, w]) (.ofSizes e₂ [n₂, c₂, fh, fw])
      (.ofSizes e [a, b, c, d]) s v = .ok p ↔
      ∃ n, e.size? = some n ∧ p = ⟨a, c₁, b, ⟨fh, fw⟩, ⟨c, d⟩, s, v, Int64.ofNat n⟩ := by
  simp only [extents]
  cases hn : e.size? <;>
    simp [dimWord_ofSizes, Shape.elementSize, hn, bind, Except.bind, pure, Except.pure,
      @eq_comm Problem p]

theorem consistent_ofSizes {e' : Element} {n f : Int64} :
    consistent p (.ofSizes e [a, b, c, d]) (.ofSizes e' [n, f, fh, fw]) = .ok true ↔
      a = p.batch ∧ n = p.outChannels ∧ f = p.inChannels ∧
      (¬ c < p.filter.height ∧ ¬ d < p.filter.width) ∧
      (c - p.filter.height) / p.strides.height + 1 = p.output.height ∧
      (d - p.filter.width) / p.strides.width + 1 = p.output.width := by
  simp only [consistent, dimWord_ofSizes, bind, Except.bind, pure, Except.pure]
  split_ifs <;> simp_all

end Extents

/-- **What `problemOf` asks for**, one after the other. -/
theorem problemOf_iff {g : Graph} {i : OpId} {w : Int64} {p : Problem} {x : Operands} :
    (problemOf g i w).run = .ok (.ok (p, x)) ↔ (operandsOf g i).run = .ok (.ok (x, .ones)) ∧
    (∀ v ∈ [x.input, x.filter, x.output], (g.ty v).shape.isStatic = true) ∧
    extents (g.ty x.input).shape (g.ty x.filter).shape (g.ty x.output).shape x.strides w = .ok p ∧
    (0 < p.strides.height ∧ 0 < p.strides.width) ∧
    consistent p (g.ty x.input).shape (g.ty x.filter).shape = .ok true ∧
    (∀ v ∈ [x.input, x.filter, x.output], (g.ty v).elem.isUnsigned = false) ∧
    ∀ v ∈ [x.input, x.filter], Element.canWiden (g.ty v).elem (g.ty x.output).elem = true := by
  simp only [problemOf, checkKnown, checkElements, Inquiry.run_bind_eq_ok, Inquiry.run_lift_eq_ok,
    Inquiry.run_demand_eq_ok, Inquiry.run_forM_demand_eq_ok]
  constructor
  · rintro ⟨⟨x, d⟩, hx, -, ⟨-, hf, -, hi, -, ho, hd⟩, p, hp, -, hs, _, hc, -, rfl, -,
      ⟨-, hsigned, hwidens⟩, ⟨⟩⟩
    obtain rfl : d = .ones := by simpa using hd
    exact ⟨hx, by simp [hf, hi, ho], hp, by simpa using hs, hc,
      fun v hv => by simpa using hsigned v hv, hwidens⟩
  · rintro ⟨hx, hstatic, hp, hs, hc, hsigned, hwidens⟩
    simp only [List.forall_mem_cons] at hstatic
    exact ⟨_, hx, (), ⟨(), hstatic.2.1, (), hstatic.1, (), hstatic.2.2.1, by simp⟩, p, hp, (),
      by simpa using hs, _, hc, (), rfl, (), ⟨(), fun v hv => by simpa using hsigned v hv,
        hwidens⟩, rfl⟩

end Conv

end ConvNest
