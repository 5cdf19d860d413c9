/-
# What computations leave

A computation that ends by a fault keeps what it did up to there.  `Leaves I P x Q` covers both ways
to end: from a state with `P`, the computation `x` leaves one with `Q`, or by a fault one with `I`.

The rules follow the way a computation is put together.  With them a property that every step keeps
is kept by every sequence of requests to a rewriter (`Rewrite.runAll_keeps`).
-/
import ConvNest.Proofs.GraphEdit
import ConvNest.Program.Rewriter

namespace ConvNest.Program

/-- From a state with `P` a computation leaves one with `Q`, or by a fault one with `I`. -/
def Leaves {σ α : Type} (I : Fault → σ → Prop) (P : σ → Prop) (x : EStateM Fault σ α)
    (Q : α → σ → Prop) : Prop :=
  ∀ s, P s → (∀ a s', x s = .ok a s' → Q a s') ∧ ∀ f s', x s = .error f s' → I f s'

namespace Leaves

section Rules

variable {σ α β : Type} {I : Fault → σ → Prop} {P : σ → Prop} {Q : α → σ → Prop} {R : β → σ → Prop}
  {xs : List α}

section

variable {x : EStateM Fault σ α} {k : α → EStateM Fault σ β} {J : Fault → σ → Prop} {P' : σ → Prop}
  {Q' : α → σ → Prop} {a : α} {f : Fault}

theorem bind (hx : Leaves I P x Q) (hk : ∀ a, Leaves I (Q a) (k a) R) : Leaves I P (x >>= k) R := by
  intro s hs
  cases hxs : x s with
  | ok a s₁ =>
    have heq : (x >>= k) s = k a s₁ := by simp only [Bind.bind, EStateM.bind, hxs]
    rw [heq]
    exact hk a s₁ ((hx s hs).1 a s₁ hxs)
  | error f s₁ =>
    have heq : (x >>= k) s = .error f s₁ := by simp only [Bind.bind, EStateM.bind, hxs]
    rw [heq]
    refine ⟨fun b s' h => absurd h (by simp), fun f' s' h => ?_⟩
    obtain ⟨rfl, rfl⟩ := EStateM.Result.error.inj h
    exact (hx s hs).2 f s₁ hxs

theorem mono (h : Leaves I P x Q) (hp : ∀ s, P' s → P s) (hq : ∀ a s, Q a s → Q' a s)
    (hi : ∀ f s, I f s → J f s) : Leaves J P' x Q' := fun s hs =>
  ⟨fun a s' hx => hq a s' ((h s (hp s hs)).1 a s' hx),
    fun f s' hx => hi f s' ((h s (hp s hs)).2 f s' hx)⟩

/-- What is known less is left all the same. -/
theorem weaken (h : Leaves I P x Q) (hq : ∀ a s, Q a s → Q' a s) : Leaves I P x Q' :=
  h.mono (fun _ hs => hs) hq fun _ _ hs => hs

/-- Two things that a computation leaves. -/
theorem both (h : Leaves I P x Q) (h' : Leaves J P' x Q') : Leaves (fun f s => I f s ∧ J f s)
      (fun s => P s ∧ P' s) x fun a s => Q a s ∧ Q' a s := fun s hs =>
  ⟨fun a s' hx => ⟨(h s hs.1).1 a s' hx, (h' s hs.2).1 a s' hx⟩,
    fun f s' hx => ⟨(h s hs.1).2 f s' hx, (h' s hs.2).2 f s' hx⟩⟩

/-- What holds of each state that a computation starts from. -/
theorem each (h : ∀ s, P s → Leaves I (· = s) x Q) : Leaves I P x Q :=
  fun s hs => h s hs s rfl

/-- A fact that has nothing to do with the state. -/
theorem given {A : Prop} (h : A → Leaves I P x Q) :
    Leaves I (fun s => A ∧ P s) x Q := fun s hs => h hs.1 s hs.2

/-- A computation that succeeds wherever it is asked for leaves what its result says. -/
theorem of_ok (h : ∀ s, P s → ∃ a s', x s = .ok a s' ∧ Q a s') : Leaves I P x Q := by
  intro s hs
  obtain ⟨a, s₁, hx, hq⟩ := h s hs
  refine ⟨fun b s' hb => ?_, fun f s' hf => ?_⟩
  · obtain ⟨rfl, rfl⟩ := EStateM.Result.ok.inj (hx.symm.trans hb)
    exact hq
  · exact absurd (hx.symm.trans hf) (by simp)

/-- A computation that starts with a step that succeeds. -/
theorem step {s₀ s₁ : σ} (hx : x s₀ = .ok a s₁) (h : Leaves I (· = s₁) (k a) R) :
    Leaves I (· = s₀) (x >>= k) R := by
  refine .bind (Q := fun b s => b = a ∧ s = s₁) (.of_ok ?_) fun b => ?_
  · rintro s rfl
    exact ⟨a, s₁, hx, rfl, rfl⟩
  · rintro s ⟨rfl, rfl⟩
    exact h s rfl

theorem pure (h : ∀ s, P s → Q a s) : Leaves I P (pure a) Q :=
  .of_ok fun s hs => ⟨a, s, rfl, h s hs⟩

theorem throw (h : ∀ s, P s → I f s) : Leaves I P (throw f : EStateM Fault σ α) Q := by
  intro s hs
  refine ⟨fun a s' hx => absurd hx state_throw_ne_ok, fun f' s' hx => ?_⟩
  obtain ⟨rfl, rfl⟩ := EStateM.Result.error.inj hx
  exact h s hs

theorem throw_bind (h : ∀ s, P s → I f s) :
    Leaves I P ((MonadExcept.throw f : EStateM Fault σ α) >>= k) R :=
  .bind (Q := fun _ _ => False) (.throw h) fun _ _ hs => hs.elim

end

theorem modify {k : σ → σ} {Q : PUnit → σ → Prop} (h : ∀ s, P s → Q ⟨⟩ (k s)) :
    Leaves I P (modify k : EStateM Fault σ PUnit) Q :=
  .of_ok fun s hs => ⟨⟨⟩, k s, rfl, h s hs⟩

theorem get_bind {k : σ → EStateM Fault σ β}
    (h : ∀ s, Leaves I (fun t => P t ∧ t = s) (k s) R) : Leaves I P (get >>= k) R :=
  .bind (.of_ok fun s hs => ⟨s, s, rfl, hs, rfl⟩) h

theorem lift {x : Except Fault α} (hi : ∀ f s, x = .error f → P s → I f s)
    (h : ∀ a s, x = .ok a → P s → Q a s) : Leaves I P (liftM x : EStateM Fault σ α) Q := by
  cases x with
  | ok a => exact .pure fun s hs => h a s rfl hs
  | error f => exact .throw fun s hs => hi f s rfl hs

/-- What every step of a walk keeps is kept by the walk. -/
theorem foldlM {J : β → σ → Prop} {k : β → α → EStateM Fault σ β}
    (h : ∀ x ∈ xs, ∀ b, Leaves I (J b) (k b x) J) (b : β) : Leaves I (J b) (xs.foldlM k b) J := by
  induction xs generalizing b with
  | nil => exact .pure fun _ hs => hs
  | cons x xs ih =>
    exact .bind (h x List.mem_cons_self b) fun b' =>
      ih (fun y hy => h y (List.mem_cons_of_mem _ hy)) b'

theorem forM {k : α → EStateM Fault σ PUnit} (h : ∀ x ∈ xs, Leaves I P (k x) fun _ => P) :
    Leaves I P (xs.forM k) fun _ => P := by
  induction xs with
  | nil => exact .pure fun _ hs => hs
  | cons x xs ih =>
    exact .bind (h x List.mem_cons_self) fun _ => ih fun y hy => h y (List.mem_cons_of_mem _ hy)

end Rules

section Editing

variable {α β : Type} {I : Fault → Editor → Prop} {P : Editor → Prop} {Q : α → Editor → Prop}
  {R : β → Editor → Prop} {i : OpId}

theorem after {J : Editor → Prop} {x : Edit α} (h : Leaves (fun _ => J) P x fun _ => J) {e : Editor}
    (he : P e) : J (x.after e) := by
  unfold Edit.after
  cases hx : x e with
  | ok a e' => exact (h e he).1 a e' hx
  | error f e' => exact (h e he).2 f e' hx

/-- Looking at the graph: what is found is the graph at that moment. -/
theorem graph_bind {k : Graph → Edit β}
    (h : ∀ g, Leaves I (fun e => P e ∧ e.graph = g) (k g) R) : Leaves I P (Edit.graph >>= k) R :=
  .bind (.of_ok fun e he => ⟨e.graph, e, rfl, he, rfl⟩) h

theorem op_bind {k : Op → Edit β} (h : ∀ x, Leaves I (fun e => P e ∧ e.graph.op i = x) (k x) R) :
    Leaves I P (Edit.op i >>= k) R :=
  .bind (.of_ok fun e he => ⟨e.graph.op i, e, rfl, he, rfl⟩) h

theorem demand {c : Bool} {f : Fault} {Q : Unit → Editor → Prop} (hi : ∀ e, P e → I f e)
    (h : ∀ e, c = true → P e → Q () e) : Leaves I P (Edit.demand c f) Q := by
  cases c with
  | true => exact .pure fun e he => h e rfl he
  | false => exact .throw hi

/-- An operation that is inserted is placed somewhere in the block of the insertion point. -/
theorem insert {Q : Unit → Editor → Prop} (hi : ∀ f e, P e → I f e)
    (h : ∀ e b pos, P e → e.point.block = some b → pos ≤ (e.graph.block b).ops.length →
      Leaves I (· = e) (Edit.place b pos i) Q) : Leaves I P (Edit.insert i) Q := by
  refine .each fun e he => ?_
  refine .step rfl (.step rfl ?_)
  split
  · exact .throw fun _ heq => hi _ _ (heq ▸ he)
  · next b hb =>
    split
    · exact .step rfl (h e b _ he hb (Nat.le_refl _))
    · split
      · next pos hpos =>
        exact h e b pos he hb (Nat.le_of_lt (List.findIdx?_eq_some_iff_findIdx_eq.1 hpos).1)
      · exact .throw fun _ heq => hi _ _ (heq ▸ he)

end Editing

end Leaves

namespace Rewrite

/-- **What every request keeps, also one that ends by a fault, is kept by every sequence of
requests.** -/
theorem runAll_keeps {J : Editor → Prop}
    (step : ∀ (r : Rewrite) (e : Editor), J e → r.Known e.graph → J (r.run.after e)) {e : Editor}
    (he : J e) (rs : List Rewrite) (h : KnownAll rs e) : J (runAll rs e) := by
  induction rs generalizing e with
  | nil => exact he
  | cons r rs ih => exact ih (step r e he h.1) h.2

end Rewrite

end ConvNest.Program
