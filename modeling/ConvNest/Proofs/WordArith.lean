/-
# Words as integers

Sums, differences and products of words are those of the integers as long as the result is a word
(`toInt_add_of_fits` and its like).  The floor quotient and remainder by a positive divisor always
are (`toInt_floorDiv`, `toInt_floorMod`).
-/
import ConvNest.Word
import Mathlib.Tactic.Linarith

namespace ConvNest.Word

variable {b : Int64}

/-- Whether an integer is the value of a word. -/
def Fits (n : Int) : Prop := -2 ^ 63 ≤ n ∧ n < 2 ^ 63

instance (n : Int) : Decidable (Fits n) := inferInstanceAs (Decidable (_ ∧ _))

theorem bmod_of_fits {n : Int} (h : Fits n) : n.bmod (2 ^ 64) = n := by
  rw [Fits] at h
  exact Int.bmod_eq_of_le_mul_two (by omega) (by omega)

theorem fits_toInt (a : Int64) : Fits a.toInt := ⟨a.le_toInt, a.toInt_lt⟩

theorem toInt_add_of_fits (h : Fits (a.toInt + b.toInt)) : (a + b).toInt = a.toInt + b.toInt := by
  rw [Int64.toInt_add, bmod_of_fits h]

theorem toInt_sub_of_fits (h : Fits (a.toInt - b.toInt)) : (a - b).toInt = a.toInt - b.toInt := by
  rw [Int64.toInt_sub, bmod_of_fits h]

theorem toInt_mul_of_fits (h : Fits (a.toInt * b.toInt)) : (a * b).toInt = a.toInt * b.toInt := by
  rw [Int64.toInt_mul, bmod_of_fits h]

variable {a d : Int64}

theorem toInt_pos (hd : 0 < d) : 0 < d.toInt := Int64.lt_iff_toInt_lt.1 hd

theorem ne_zero_of_pos (hd : 0 < d) : d ≠ 0 := by
  rintro rfl
  exact absurd hd (by decide)

theorem eq_zero_iff_toInt (a : Int64) : a = 0 ↔ a.toInt = 0 := by
  rw [← Int64.toInt_inj]
  rfl

theorem ediv_bounds {n k : Int} (hk : 0 < k) :
    (0 ≤ n → 0 ≤ n / k ∧ n / k ≤ n) ∧ (n < 0 → n ≤ n / k ∧ n / k < 0) := by
  refine ⟨fun hn => ⟨Int.ediv_nonneg hn hk.le, Int.ediv_le_self k hn⟩, fun hn => ⟨?_, ?_⟩⟩
  · rw [Int.le_ediv_iff_mul_le hk]
    nlinarith
  · exact Int.ediv_neg_of_neg_of_pos hn hk

/-- The truncated quotient is the floor quotient, but for negative numbers with a remainder. -/
theorem toInt_div_of_pos (hd : 0 < d) :
    (a / d).toInt = a.toInt / d.toInt + if 0 ≤ a.toInt ∨ d.toInt ∣ a.toInt then 0 else 1 := by
  have hpos := toInt_pos hd
  have hfits := fits_toInt a
  obtain ⟨hnonneg, hneg⟩ := ediv_bounds (n := a.toInt) hpos
  rw [Int64.toInt_div, Int.tdiv_eq_ediv, Int.sign_eq_one_of_pos hpos]
  refine bmod_of_fits ?_
  rw [Fits] at hfits ⊢
  split <;> omega

theorem toInt_mod_of_pos (hd : 0 < d) :
    (a % d).toInt = a.toInt % d.toInt - if 0 ≤ a.toInt ∨ d.toInt ∣ a.toInt then 0 else d.toInt := by
  have hpos := toInt_pos hd
  rw [Int64.toInt_mod, Int.tmod_eq_emod]
  split <;> omega

theorem mod_eq_zero_iff_dvd : a % d = 0 ↔ d.toInt ∣ a.toInt := by
  rw [eq_zero_iff_toInt, Int64.toInt_mod]
  exact (Int.dvd_iff_tmod_eq_zero ..).symm

theorem neg_iff_toInt (a : Int64) : a < 0 ↔ a.toInt < 0 := Int64.lt_iff_toInt_lt

/-- The floor quotient by a positive divisor is that of the integers. -/
theorem toInt_floorDiv (hd : 0 < d) : (floorDiv a d).toInt = a.toInt / d.toInt := by
  have hpos := toInt_pos hd
  have hfits := fits_toInt a
  obtain ⟨-, hneg⟩ := ediv_bounds (n := a.toInt) hpos
  have hdneg : ¬ d < 0 := by rw [neg_iff_toInt]; omega
  have hq := toInt_div_of_pos (a := a) hd
  have hone : (1 : Int64).toInt = 1 := rfl
  rw [Fits] at hfits
  simp only [floorDiv, hdneg, ne_eq, mod_eq_zero_iff_dvd, neg_iff_toInt, decide_false,
    Bool.bne_false, Bool.and_eq_true, decide_eq_true_eq]
  split
  · next h =>
    rw [toInt_sub_of_fits] <;> rw [hq, hone]
    · omega
    · exact ⟨by omega, by omega⟩
  · next h =>
    have hcase : 0 ≤ a.toInt ∨ d.toInt ∣ a.toInt := by
      by_contra hnot
      exact h ⟨fun hdvd => hnot (.inr hdvd), by omega⟩
    rw [hq, if_pos hcase, add_zero]

/-- The floor remainder by a positive divisor is that of the integers. -/
theorem toInt_floorMod (hd : 0 < d) : (floorMod a d).toInt = a.toInt % d.toInt := by
  have hpos := toInt_pos hd
  have hfits := fits_toInt d
  have hlow := Int.emod_nonneg a.toInt hpos.ne'
  have hhigh := Int.emod_lt_of_pos a.toInt hpos
  have hdneg : ¬ d < 0 := by rw [neg_iff_toInt]; omega
  have hr := toInt_mod_of_pos (a := a) hd
  rw [Fits] at hfits
  simp only [floorMod, hdneg, ne_eq, eq_zero_iff_toInt, neg_iff_toInt, decide_false, Bool.bne_false,
    Bool.and_eq_true, decide_eq_true_eq]
  split at hr
  · rw [if_neg (by omega), hr]
    omega
  · rw [if_pos (by omega), toInt_add_of_fits] <;> rw [hr]
    · omega
    · exact ⟨by omega, by omega⟩

end ConvNest.Word
