/-
# Expressions that do not decrease

`nonDecreasing` looks at the terms of the linear form.  It accepts a term with dimensions only if
its coefficient is not negative and it is a dimension, or the quotient of an expression that is
accepted in turn.  What is accepted does not decrease in the integers (`valueIn_mono`), as long as
nothing wraps around while the linear form is built.

What stands under a quotient has been written from a form that is normal (`linear_nested`), so that
reading its form once more gives the same terms, and nothing can wrap around there.
-/
import ConvNest.Proofs.Outcome
import ConvNest.Proofs.Points
import ConvNest.Proofs.Substitution
import Mathlib.Algebra.Order.BigOperators.Group.List

namespace ConvNest.Affine

open List

variable {dims dims' syms : List Int64} {e : Expr} {f : Linear} {α : Type} {fuel : Nat}
  {xs : List α}

/-! ## 1. What stands under a quotient -/

/-- If the expression is a quotient, it is that of a normal form. -/
def Expr.Nested (e : Expr) : Prop :=
  ∀ x c, e = .binary .floordiv x (.const c) → 0 < c ∧ ∃ r : Linear, r.Normal ∧ r.toExpr = x

/-- **Quotients in a linear form are those of normal forms.** -/
theorem linear_nested (hw : e.WellFormed) (ho : e.Over Expr.Placed) (h : e.linear = .ok f) :
    f.All Expr.Nested := by
  have leaf {x : Expr} (hx : ∀ y c, x ≠ .binary .floordiv y (.const c)) : x.Nested := fun y c heq =>
    absurd heq (hx y c)
  refine (of_linear h (linear_along (motive := fun _ f => f.Normal ∧ f.All Expr.Nested) hw ho
    (fun p hp => ⟨.ofExpr trivial (Expr.over_dim hp) rfl, Linear.all_ofExpr (leaf (by simp))⟩)
    (fun p hp => ⟨.ofExpr trivial (Expr.over_sym hp) rfl, Linear.all_ofExpr (leaf (by simp))⟩)
    (fun c => ⟨.ofConst c, Linear.all_ofConst c⟩) ?_ ?_ ?_ ?_)).2
  · intro l r a b _ _ _ _ ha hb
    exact ⟨ha.1.addScaled hb.1 1, Linear.all_addScaled ha.2 hb.2⟩
  · intro l r a b _ _ _ _ ha hb
    refine ⟨ha.1.mul hb.1, ?_⟩
    rw [Linear.mul]
    split
    · exact Linear.all_addScaled (Linear.all_ofConst 0) ha.2
    split
    · exact Linear.all_addScaled (Linear.all_ofConst 0) hb.2
    · exact Linear.all_ofExpr (leaf (by simp [Expr.mul]))
  · intro l a c hc _ _ ha
    refine ⟨ha.1.floored hc, ?_⟩
    rw [Linear.floored]
    split
    · exact Linear.all_quotient ha.2
    · refine Linear.all_addTerm ?_ (Linear.all_quotient ha.2)
      rintro x d heq
      obtain ⟨-, rfl, hcd⟩ := Expr.binary.inj heq
      obtain rfl := Expr.const.inj hcd
      exact ⟨hc, _, ha.1.rest c, rfl⟩
  · intro l a c hc ha
    refine ⟨ha.1.remaining hc, ?_⟩
    rw [Linear.remaining]
    split
    · exact Linear.all_ofConst _
    split
    · exact Linear.all_ofConst _
    · exact Linear.all_ofExpr (leaf (by simp))

/-! ## 2. The test -/

theorem allM_eq_true {f : α → Except Fault Bool} (h : xs.allM f = .ok true) :
    ∀ x ∈ xs, f x = .ok true := by
  induction xs with
  | nil => simp
  | cons x xs ih =>
    obtain ⟨b, hb, h⟩ := except_bind_eq_ok.1 h
    cases b with
    | true => exact forall_mem_cons.2 ⟨hb, ih h⟩
    | false => cases h

theorem allM_ok {f : α → Except Fault Bool} (h : ∀ x ∈ xs, ∃ r, f x = .ok r) :
    ∃ r, xs.allM f = .ok r := by
  induction xs with
  | nil => exact ⟨true, rfl⟩
  | cons x xs ih =>
    obtain ⟨r, hr⟩ := h x mem_cons_self
    rw [List.allM, hr]
    cases r with
    | true => exact ih fun y hy => h y (mem_cons_of_mem _ hy)
    | false => exact ⟨false, rfl⟩

/-- What the test asks of a term. -/
theorem nonDecreasingWithin_term (hf : e.linear = .ok f)
    (h : e.nonDecreasingWithin (fuel + 1) = .ok true) {t : Term} (ht : t ∈ f.terms) :
    t.expr.usesDims = false ∨ 0 ≤ t.coef.toInt ∧
      ((∃ p, t.expr = .dim p) ∨
        ∃ x r, t.expr = .binary .floordiv x r ∧ x.nonDecreasingWithin fuel = .ok true) := by
  rw [Expr.nonDecreasingWithin, hf] at h
  have hterm := allM_eq_true h t ht
  cases huses : t.expr.usesDims with
  | false => exact .inl rfl
  | true =>
    simp only [huses, Bool.not_true, Bool.false_eq_true, if_false] at hterm
    split at hterm
    · cases hterm
    · next hneg =>
      refine .inr ⟨Word.not_lt_zero_iff.1 hneg, ?_⟩
      split at hterm
      · next p heq => exact .inl ⟨p, heq⟩
      · next x r heq => exact .inr ⟨x, r, heq, hterm⟩
      · cases hterm

theorem nonDecreasingWithin_ok (fuel : Nat) (hw : e.WellFormed) :
    ∃ r, e.nonDecreasingWithin fuel = .ok r := by
  induction fuel generalizing e with
  | zero => exact ⟨false, rfl⟩
  | succ fuel ih =>
    obtain ⟨f, hf, hproper⟩ := linear_proper hw e.over_true
    rw [Expr.nonDecreasingWithin, hf]
    refine allM_ok fun t ht => ?_
    have hfactor := (hproper t ht).1
    split
    · exact ⟨true, rfl⟩
    split
    · exact ⟨false, rfl⟩
    split
    · exact ⟨true, rfl⟩
    · next x r heq =>
      rw [heq] at hfactor
      exact ih hfactor.1.1
    · exact ⟨false, rfl⟩

/-- The test gives an answer. -/
theorem nonDecreasing_ok (hw : e.WellFormed) : ∃ r, e.nonDecreasing = .ok r :=
  nonDecreasingWithin_ok _ hw

theorem over_of_usesDims {P : Expr → Prop} (h : e.usesDims = false) (hp : ∀ p, P (.sym p)) :
    e.Over P := by
  induction e with
  | dim p => cases h
  | sym p => exact Expr.over_sym (hp p)
  | const c => exact Expr.over_const c
  | binary op l r ihl ihr =>
    rw [Expr.usesDims, Bool.or_eq_false_iff] at h
    exact Expr.over_binary.2 ⟨ihl h.1, ihr h.2⟩

/-- The terms of an accepted expression do not decrease, by induction on the nesting of
quotients. -/
theorem linear_mono (hw : e.WellFormed) (ho : e.Over Expr.Placed) (hf : e.linear = .ok f)
    (h : e.nonDecreasingWithin fuel = .ok true)
    (hle : ∀ p, (wordAt dims p).toInt ≤ (wordAt dims' p).toInt) :
    f.valueIn (integers dims syms) ≤ f.valueIn (integers dims' syms) := by
  induction fuel generalizing e f with
  | zero => cases h
  | succ fuel ih =>
    refine Int.add_le_add_right (sum_le_sum fun t ht => ?_) _
    obtain ⟨g, hg, hproper⟩ := linear_proper hw ho
    obtain rfl : f = g := Except.ok.inj (hf.symm.trans hg)
    obtain ⟨hfactor, hplaced⟩ := hproper t ht
    have hterm (ds : List Int64) : Linear.termValue (integers ds syms) t =
        t.coef.toInt * t.expr.valueIn (integers ds syms) := by
      rw [Linear.termValue]
      simp only [integers]
    rw [hterm, hterm]
    rcases nonDecreasingWithin_term hf h ht with huses | ⟨hcoef, hdim | ⟨x, r, heq, hx⟩⟩
    · exact le_of_eq (congrArg _ (Expr.valueIn_congr (over_of_usesDims huses fun p => by
        rw [Expr.valueIn_sym, Expr.valueIn_sym])))
    · obtain ⟨p, heq⟩ := hdim
      rw [heq, Expr.valueIn_dim, Expr.valueIn_dim]
      exact mul_le_mul_of_nonneg_left (hle p) hcoef
    · rw [heq] at hfactor hplaced
      obtain ⟨⟨hxw, -⟩, c, hc, rfl⟩ := hfactor
      obtain ⟨-, n, hn, rfl⟩ := linear_nested hw ho hf t ht x c heq
      have hxo := (Expr.over_binary.1 hplaced).1
      have hread := ih hxw hxo hn.linear_toExpr hx
      have hsame (ds : List Int64) : Linear.valueIn (integers ds syms) ⟨n.sortedTerms, n.constant⟩ =
          n.toExpr.valueIn (integers ds syms) := by
        rw [Linear.valueIn_toExpr, Linear.valueIn, Linear.valueIn,
          (n.sortedTerms_perm.map _).sum_eq]
      rw [hsame, hsame] at hread
      rw [heq, Expr.valueIn_floordiv, Expr.valueIn_floordiv]
      exact mul_le_mul_of_nonneg_left (Int.ediv_le_ediv (Word.toInt_pos hc) hread) hcoef

/-- **What is accepted does not decrease**, if nothing wraps around while its linear form is
built. -/
theorem valueIn_mono (hw : e.WellFormed) (ho : e.Over Expr.Placed)
    (hx : e.buildsExactly Int64.toInt) (h : e.nonDecreasing = .ok true)
    (hle : ∀ p, (wordAt dims p).toInt ≤ (wordAt dims' p).toInt) :
    e.valueIn (integers dims syms) ≤ e.valueIn (integers dims' syms) := by
  obtain ⟨f, hf, -⟩ := linear_proper hw ho
  rw [← linear_valueIn dims syms hw hx hf, ← linear_valueIn dims' syms hw hx hf]
  exact linear_mono hw ho hf h hle

/-- Lists of words that are ordered item by item are ordered at every position. -/
theorem wordAt_le {xs ys : List Int64} (h : Forall₂ (· ≤ ·) xs ys) (p : Int64) :
    (wordAt xs p).toInt ≤ (wordAt ys p).toInt := by
  rw [wordAt, wordAt, Word.at?, Word.at?]
  split
  · exact le_rfl
  generalize p.toInt.toNat = k
  induction h generalizing k with
  | nil => exact le_rfl
  | cons hxy _ ih =>
    cases k with
    | zero => exact Int64.le_iff_toInt_le.1 hxy
    | succ k => exact ih k

/-- Positions in range have values. -/
theorem eval_within {xs : List Int64} (ho : e.Over (Expr.Within xs.length syms.length)) :
    e.Over fun x => ∃ n, x.eval xs syms = .ok n := by
  have hpick {ns : List Int64} {p : Int64} (h : 0 ≤ p.toInt ∧ p.toInt < ns.length) :
      ∃ n, pick ns p = .ok n :=
    ⟨_, pick_eq_ok.2 ⟨h.1, getElem?_eq_getElem (by omega)⟩⟩
  exact fun p => ⟨fun hp => hpick ((ho p).1 hp), fun hp => hpick ((ho p).2 hp)⟩

/-- **What is accepted does not decrease in the dimensions**, for any values of the symbols: in the
integers, and in words if nothing wraps around there either.  So over a box all values lie between
those at its corners. -/
theorem nonDecreasing_sound (hw : e.WellFormed) (hbuilds : e.buildsExactly Int64.toInt)
    (haccepted : e.nonDecreasing = .ok true) (syms : List Int64) :
    (∀ xs ys : List Int64, List.Forall₂ (· ≤ ·) xs ys → e.Over (Expr.Within xs.length syms.length) →
      e.valueIn (integers xs syms) ≤ e.valueIn (integers ys syms) ∧
      (e.exact xs syms → e.exact ys syms →
        ∃ a b, e.eval xs syms = .ok a ∧ e.eval ys syms = .ok b ∧ a ≤ b)) ∧
    ∀ lo xs hi : List Int64, List.Forall₂ (· ≤ ·) lo xs → List.Forall₂ (· ≤ ·) xs hi →
      e.Over (Expr.Within xs.length syms.length) →
      e.valueIn (integers lo syms) ≤ e.valueIn (integers xs syms) ∧
      e.valueIn (integers xs syms) ≤ e.valueIn (integers hi syms) := by
  have hmono {xs ys : List Int64} {n : Nat} (hle : List.Forall₂ (· ≤ ·) xs ys)
      (ho : e.Over (Expr.Within n syms.length)) :
      e.valueIn (integers xs syms) ≤ e.valueIn (integers ys syms) :=
    valueIn_mono hw (ho.mono Expr.within_placed) hbuilds haccepted (wordAt_le hle)
  refine ⟨fun xs ys hle ho => ⟨hmono hle ho, fun hx hy => ?_⟩,
    fun lo xs hi hlo hhi ho => ⟨hmono hlo ho, hmono hhi ho⟩⟩
  obtain ⟨a, ha⟩ := eval_of_over hw (eval_within ho)
  obtain ⟨b, hb⟩ := eval_of_over hw (eval_within (hle.length_eq ▸ ho))
  refine ⟨a, b, ha, hb, Int64.le_iff_toInt_le.2 ?_⟩
  rw [toInt_of_eval hw hx ha, toInt_of_eval hw hy hb]
  exact hmono hle ho

theorem nonDecreasing_sound_quotient : ∃ a b,
    (Expr.binary .floordiv (.add (.mul (.dim 0) (.const 3)) (.mul (.sym 0) (.const (-1))))
      (.const 4)).eval [1] [5] = .ok a ∧
    (Expr.binary .floordiv (.add (.mul (.dim 0) (.const 3)) (.mul (.sym 0) (.const (-1))))
      (.const 4)).eval [2] [5] = .ok b ∧ a ≤ b := by
  refine ((nonDecreasing_sound (e := .binary .floordiv
    (.add (.mul (.dim 0) (.const 3)) (.mul (.sym 0) (.const (-1)))) (.const 4))
    ⟨⟨⟨trivial, trivial⟩, trivial, trivial⟩, 4, by decide, rfl⟩ (by cbv) (by cbv) [5]).1 [1]
      [2] ?_ ?_).2
    (by cbv) (by cbv)
  · exact .cons (by decide) .nil
  · exact Expr.over_binary.2
      ⟨Expr.over_binary.2
        ⟨Expr.over_binary.2 ⟨Expr.over_dim ⟨by decide, by decide⟩, Expr.over_const 3⟩,
          Expr.over_binary.2 ⟨Expr.over_sym ⟨by decide, by decide⟩, Expr.over_const _⟩⟩,
      Expr.over_const 4⟩

end ConvNest.Affine
