/-
# Steps in disjoint regions commute

A step on a tensor is local to a region if it changes nothing outside of it, and what it does
depends only on what is in the region.  Local steps whose regions are disjoint can be taken in any
order (`foldlM_perm`).
-/
import ConvNest.Proofs.Agreement

namespace ConvNest.Tensor

/-- A step on tensors like `ref` that reads and writes only the positions of a region. -/
structure LocalTo (ref : Tensor) (R : Nat → Prop) (f : Tensor → Option Tensor) : Prop where
  writes : ∀ {t t'}, ref.Alike t → f t = some t' → AgreeOn (fun j => ¬ R j) t t'
  reads : ∀ {t t' u}, ref.Alike t → f t = some t' → AgreeOn R t u →
    ∃ u', f u = some u' ∧ AgreeOn R t' u'

section Steps

variable {ref t r : Tensor} {R Q : Nat → Prop} {f g : Tensor → Option Tensor}

theorem LocalTo.alike (h : LocalTo ref R f) {t' : Tensor} (ht : ref.Alike t) (hf : f t = some t') :
    ref.Alike t' :=
  ht.trans (h.writes ht hf).alike

/-- Two steps in disjoint regions can be taken the other way round. -/
theorem LocalTo.comm (hf : LocalTo ref R f) (hg : LocalTo ref Q g) (hdisj : ∀ j, R j → ¬ Q j)
    (ht : ref.Alike t) (h : (f t).bind g = some r) : (g t).bind f = some r := by
  obtain ⟨t₁, h₁, h₂⟩ := Option.bind_eq_some_iff.1 h
  have ht₁ := hf.alike ht h₁
  have hw₁ := hf.writes ht h₁
  have hw₂ := hg.writes ht₁ h₂
  -- The second step finds its region as it was at first, and so does then the first one.
  obtain ⟨u₁, hu₁, hsame₁⟩ := hg.reads ht₁ h₂ (hw₁.symm.mono fun j hq hr => hdisj j hr hq)
  have hwu₁ := hg.writes ht hu₁
  obtain ⟨u₂, hu₂, hsame₂⟩ := hf.reads ht h₁ (hwu₁.mono fun j hr => hdisj j hr)
  have hwu₂ := hf.writes (hg.alike ht hu₁) hu₂
  have inR : AgreeOn R u₂ r := hsame₂.symm.trans (hw₂.mono fun j hr => hdisj j hr)
  have inQ : AgreeOn Q u₂ r :=
    (hwu₂.symm.mono fun j hq hr => hdisj j hr hq).trans hsame₁.symm
  have outside : AgreeOn (fun j => ¬ R j ∧ ¬ Q j) u₂ r :=
    (hwu₂.symm.mono fun _ h => h.1).trans <| (hwu₁.symm.mono fun _ h => h.2).trans <|
      (hw₁.mono fun _ h => h.1).trans (hw₂.mono fun _ h => h.2)
  have heq : u₂ = r := ((inR.or inQ).or outside).mono (fun j _ => by tauto) |>.eq
  rw [hu₁, Option.bind_some, hu₂, heq]

/-- **Local steps in disjoint regions can be taken in any order.** -/
theorem foldlM_perm {X : Type} {step : X → Tensor → Option Tensor} {region : X → Nat → Prop}
    {xs ys : List X} (hperm : xs.Perm ys) (hlocal : ∀ x ∈ xs, LocalTo ref (region x) (step x))
    (hdisj : xs.Pairwise fun x y => ∀ j, region x j → ¬ region y j) (ht : ref.Alike t)
    (h : xs.foldlM (fun t x => step x t) t = some r) :
    ys.foldlM (fun t x => step x t) t = some r := by
  have symm : ∀ {x y : X}, (∀ j, region x j → ¬ region y j) → ∀ j, region y j → ¬ region x j :=
    fun h j hy hx => h j hx hy
  induction hperm generalizing t with
  | nil => exact h
  | cons x _ ih =>
    obtain ⟨t₁, h₁, h⟩ := Option.bind_eq_some_iff.1 h
    refine Option.bind_eq_some_iff.2 ⟨t₁, h₁, ?_⟩
    exact ih (fun y hy => hlocal y (List.mem_cons_of_mem _ hy)) (List.pairwise_cons.1 hdisj).2
      ((hlocal x List.mem_cons_self).alike ht h₁) h
  | swap x y l =>
    simp only [List.foldlM_cons, Option.bind_eq_bind, ← Option.bind_assoc] at h ⊢
    obtain ⟨t₂, h₂, h⟩ := Option.bind_eq_some_iff.1 h
    refine Option.bind_eq_some_iff.2 ⟨t₂, ?_, h⟩
    exact (hlocal y (by simp)).comm (hlocal x (by simp))
      ((List.pairwise_cons.1 hdisj).1 x List.mem_cons_self) ht h₂
  | trans hxy _ ih ih' =>
    exact ih' (fun y hy => hlocal y (hxy.mem_iff.2 hy)) (hxy.pairwise hdisj symm) ht
      (ih hlocal hdisj ht h)

end Steps

end ConvNest.Tensor
