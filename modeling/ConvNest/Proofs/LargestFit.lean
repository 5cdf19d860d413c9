/-
# The largest parameter and the largest microkernel

Sizes that do not decrease split the range of a search into parameters that fit and larger ones that
do not.  Bisection keeps the split between its bounds, so it ends at the largest parameter that fits
(`bisect_largest`).  Halving stops at the first parameter that fits, and the one before did not
(`halve_near`).

The growth of a microkernel enlarges one side at each step and both are bounded, so it ends
(`grow_stops`); it ends where neither side can grow.
-/
import ConvNest.Proofs.CacheFit
import Mathlib.Data.Int.LeastGreatest

namespace ConvNest.Schedule

open Word

/-! ## 1. Searches -/

namespace Heuristic

variable {fits : Int64 → Bool} {fuel : Nat} {low high most m n r : Int64} {found : Option Int64}

/-- The largest parameter up to a bound that fits. -/
def Largest (fits : Int64 → Bool) (most m : Int64) : Prop :=
  Finds fits most m ∧ ∀ n, Finds fits most n → n.toInt ≤ m.toInt

/-- What is below a parameter that fits, fits. -/
def Downward (fits : Int64 → Bool) (most : Int64) : Prop :=
  ∀ a b : Int64, 1 ≤ a.toInt → a.toInt ≤ b.toInt → b.toInt ≤ most.toInt → fits b = true →
    fits a = true

theorem exists_largest (hmost : 1 ≤ most.toInt) (hone : fits 1 = true) :
    ∃ m, Largest fits most m := by
  obtain ⟨_, ⟨m, rfl, hm⟩, hmax⟩ :=
    Int.exists_greatest_of_bdd (P := fun i => ∃ n, n.toInt = i ∧ Finds fits most n)
    ⟨most.toInt, by rintro _ ⟨n, rfl, -, hle, -⟩; exact hle⟩ ⟨1, 1, rfl, le_rfl, hmost, hone⟩
  exact ⟨m, hm, fun n hn => hmax _ ⟨n, rfl, hn⟩⟩

/-- What does not fit is above the largest parameter that does. -/
theorem Largest.lt (hm : Largest fits most m) (hdown : Downward fits most) (hn : 1 ≤ n.toInt)
    (hfits : ¬ fits n = true) : m.toInt < n.toInt := by
  by_contra hle
  exact hfits (hdown n m hn (not_lt.1 hle) hm.1.2.1 hm.1.2.2)

/-- The largest parameter is in the range of a bisection, or it is what was found last. -/
theorem bisect_largest (hdown : Downward fits most) (hm : Largest fits most m)
    (hlow : 1 ≤ low.toInt) (hhigh : high.toInt ≤ most.toInt) (hmost : m.toInt < most.toInt)
    (hml : low.toInt ≤ m.toInt + 1) (hmh : m.toInt ≤ high.toInt)
    (hfound : m.toInt < low.toInt → found = some m) (hfuel : high.toInt - low.toInt < fuel) :
    bisect fits fuel low high found = some m := by
  induction fuel generalizing low high found with
  | zero => exact hfound (by omega)
  | succ fuel ih =>
    by_cases hle : low.toInt ≤ high.toInt
    · obtain ⟨mid, hmid, hback, hnext, hstep⟩ := bisect_succ fits fuel found hlow hle
      rw [hstep]
      split
      · next hfits =>
        have hmax := hm.2 mid ⟨by omega, by omega, hfits⟩
        have hnext := hnext most (by omega)
        refine ih (by omega) hhigh (by omega) hmh (fun hlt => ?_) (by omega)
        rw [Int64.toInt_inj.1 (show mid.toInt = m.toInt by omega)]
      · next hfits =>
        have hlt := hm.lt hdown (by omega) hfits
        exact ih hlow (by omega) hml (by omega) hfound (by omega)
    · rw [bisect, if_neg (mt Int64.le_iff_toInt_le.1 hle)]
      exact hfound (by omega)

/-- Each step of a halving that goes on leaves the largest parameter below it, within twice the next
one. -/
theorem halve_near (hdown : Downward fits most) (hm : Largest fits most m)
    (hmn : m.toInt ≤ 2 * n.toInt) (h : halve fits fuel n = some r) : m.toInt ≤ 2 * r.toInt := by
  induction fuel generalizing n with
  | zero => cases h
  | succ fuel ih =>
    rw [halve] at h
    split at h
    · next hpos =>
      have hpos : 0 < n.toInt := toInt_pos hpos
      split at h
      · cases h
        exact hmn
      · next hfits =>
        have hlt := hm.lt hdown hpos hfits
        have hhalf := toInt_half hpos.le
        exact ih (by omega) h
    · cases h

variable {h : Heuristic} {size : Int64 → Int64} {capacity : Int64}

section

variable (hdown : Downward (fun n => decide (size n ≤ capacity)) most)
  (hm : Largest (fun n => decide (size n ≤ capacity)) most m)

include hdown hm

theorem search_binary : binary.search most size capacity = some m := by
  obtain ⟨hone, hle, hfits⟩ := hm.1
  unfold search
  rw [if_neg (Int64.not_lt.2 (show 1 ≤ most from Int64.le_iff_toInt_le.2 (hone.trans hle)))]
  split
  · next hbig => rw [Int64.toInt_inj.1 (le_antisymm hle (hm.2 most ⟨by omega, le_rfl, hbig⟩))]
  · next hbig =>
    have hunit : (1 : Int64).toInt = 1 := rfl
    have hlt := hm.lt hdown (by omega) hbig
    exact bisect_largest hdown hm le_rfl le_rfl hlt (by omega) hle (by omega) (by omega)

theorem search_near (hr : h.search most size capacity = some r) : m.toInt ≤ 2 * r.toInt := by
  obtain ⟨hone, hle, -⟩ := hm.1
  by_cases hbinary : h = binary
  · rw [hbinary, search_binary hdown hm] at hr
    cases hr
    omega
  unfold search at hr
  simp only at hr
  rw [if_neg (Int64.not_lt.2 (show 1 ≤ most from Int64.le_iff_toInt_le.2 (hone.trans hle)))] at hr
  split at hr
  · cases hr
    omega
  · next hbig =>
    have hlt := hm.lt hdown (by omega) hbig
    have hhalf := toInt_half (n := most) (by omega)
    exact halve_near hdown hm (by omega) hr

end

/-- **On sizes that do not decrease, a search succeeds exactly if the parameter one fits; bisection
finds the largest parameter that fits, and any other search at least half of it.**  All below the
range of a bisection fits and nothing above it does, until the range is empty.  Halving tries
`most`, `most / 2` and so on down to one, and stops at the first that fits: the one before did not
fit, so twice the result is no less than the largest. -/
theorem search_largest (hmost : 1 ≤ most)
    (hmono : ∀ a b : Int64, 1 ≤ a → a ≤ b → b ≤ most → size a ≤ size b) :
    ((h.search most size capacity).isSome ↔ size 1 ≤ capacity) ∧
    (size 1 ≤ capacity → ∃ r m, h.search most size capacity = some r ∧
      Largest (fun n => decide (size n ≤ capacity)) most m ∧ (h = .binary → r = m) ∧
      size r ≤ capacity ∧ r.toInt ≤ m.toInt ∧ m.toInt ≤ 2 * r.toInt) := by
  have hdown : Downward (fun n => decide (size n ≤ capacity)) most := by
    intro a b ha hab hb hfits
    have hab := hmono a b (Int64.le_iff_toInt_le.2 ha) (Int64.le_iff_toInt_le.2 hab)
      (Int64.le_iff_toInt_le.2 hb)
    exact decide_eq_true (Int64.le_trans hab (of_decide_eq_true hfits))
  have hpos : 1 ≤ most.toInt := Int64.le_iff_toInt_le.1 hmost
  have hsome (hone : size 1 ≤ capacity) : ∃ r, h.search most size capacity = some r :=
    Option.ne_none_iff_exists'.1 (search_ne_none hpos (Int64.le_iff_toInt_le.1 hone))
  refine ⟨⟨fun hs => ?_, fun hone => Option.isSome_iff_exists.2 (hsome hone)⟩, fun hone => ?_⟩
  · obtain ⟨r, hr⟩ := Option.isSome_iff_exists.1 hs
    obtain ⟨hr₁, hle, hfits⟩ := search_found hr
    exact of_decide_eq_true
      (hdown 1 r le_rfl hr₁ hle (decide_eq_true (Int64.le_iff_toInt_le.2 hfits)))
  · obtain ⟨r, hr⟩ := hsome hone
    obtain ⟨m, hm⟩ : ∃ m, Largest (fun n => decide (size n ≤ capacity)) most m :=
      exists_largest hpos (decide_eq_true hone)
    obtain ⟨hr₁, hle, hfits⟩ := search_found hr
    have hfits := Int64.le_iff_toInt_le.2 hfits
    refine ⟨r, m, hr, hm, ?_, hfits, hm.2 r ⟨hr₁, hle, decide_eq_true hfits⟩,
      search_near hdown hm hr⟩
    rintro rfl
    exact Option.some.inj (hr.symm.trans (search_binary hdown hm))

/-- Ten bytes for each of a hundred and one parameters, and room for seventy-seven. -/
theorem search_largest_tens : ∃ r, half.search 101 (10 * ·) 770 = some r ∧ 39 ≤ r.toInt := by
  have hmul {n : Int64} (hn : 1 ≤ n.toInt) (hle : n.toInt ≤ 101) : (10 * n).toInt = 10 * n.toInt :=
    toInt_mul_of_fits ⟨by change _ ≤ 10 * n.toInt; omega, by change 10 * n.toInt < _; omega⟩
  have hmono (a b : Int64) (ha : 1 ≤ a) (hab : a ≤ b) (hb : b ≤ 101) : 10 * a ≤ 10 * b := by
    have ha : 1 ≤ a.toInt := Int64.le_iff_toInt_le.1 ha
    have hb : b.toInt ≤ 101 := Int64.le_iff_toInt_le.1 hb
    rw [Int64.le_iff_toInt_le] at hab ⊢
    rw [hmul ha (hab.trans hb), hmul (ha.trans hab) hb]
    omega
  obtain ⟨r, m, hr, hm, -, -, -, hnear⟩ :=
    (search_largest (h := half) (by decide) hmono).2 (show 10 * 1 ≤ (770 : Int64) by decide)
  have hle : 77 ≤ m.toInt := hm.2 77 ⟨by decide, by decide, by decide⟩
  exact ⟨r, hr, by omega⟩

end Heuristic

/-! ## 2. Microkernels -/

namespace Microkernel

variable {budget maxFilters maxWindows : Int64} {k k' : Microkernel}

/-- Growth goes from one shape to another one, in any number of steps. -/
def Grows (budget maxFilters maxWindows : Int64) : Microkernel → Microkernel → Prop :=
  Relation.ReflTransGen fun k k' => k.larger? budget maxFilters maxWindows = some k'

theorem grows_grow (fuel : Nat) :
    Grows budget maxFilters maxWindows k (grow budget maxFilters maxWindows fuel k) := by
  induction fuel generalizing k with
  | zero => exact .refl
  | succ fuel ih =>
    rw [grow]
    split
    · next hk => exact .head hk ih
    · exact .refl

/-- Each step enlarges a side, so growth stops before the sides are larger than their bounds. -/
theorem grow_stops {fuel : Nat} (hk : k.Bounded maxFilters maxWindows)
    (hfuel : maxFilters.toInt + maxWindows.toInt - (k.filters.toInt + k.windows.toInt) ≤ fuel) :
    (grow budget maxFilters maxWindows fuel k).larger? budget maxFilters maxWindows = none := by
  have hlt {k k' : Microkernel} (h : k.larger? budget maxFilters maxWindows = some k') :
      k.filters.toInt + k.windows.toInt < k'.filters.toInt + k'.windows.toInt := by
    obtain ⟨⟨rfl, hlt⟩ | ⟨rfl, hlt⟩, -⟩ := larger?_cases h
    · exact Int.add_lt_add_left hlt _
    · exact Int.add_lt_add_right hlt _
  induction fuel generalizing k with
  | zero =>
    rw [grow, Option.eq_none_iff_forall_ne_some]
    intro k' hk'
    have := hlt hk'
    have := (hk.larger hk').filters_le
    have := (hk.larger hk').windows_le
    omega
  | succ fuel ih =>
    rw [grow]
    split
    · next k' hk' =>
      have := hlt hk'
      exact ih (hk.larger hk') (by omega)
    · next hnone => exact hnone

theorem larger?_eq_none (h : k.larger? budget maxFilters maxWindows = none) :
    (k.filters < min (2 * k.filters) maxFilters →
      ¬ fits budget { k with filters := min (2 * k.filters) maxFilters } = true) ∧
    (k.windows < min (2 * k.windows) maxWindows →
      ¬ fits budget { k with windows := min (2 * k.windows) maxWindows } = true) := by
  rw [larger?] at h
  split at h
  · cases h
  · grind

/-- The accumulators fit in the registers, and the operands in a quarter of them, in integers. -/
def Within (budget filters windows : Int) : Prop :=
  filters * windows ≤ budget ∧ filters + windows ≤ budget / 4

theorem fits_iff {f w : Int} (hbudget : 0 ≤ budget.toInt) (hf : k.filters.toInt = f)
    (hw : k.windows.toInt = w) (hmul : Fits (f * w)) (hadd : Fits (f + w)) : k.fits budget = true ↔
    Within budget.toInt f w := by
  have hquarter : (budget / 4).toInt = budget.toInt / 4 := toInt_div_nonneg hbudget (d := 4)
    (by decide)
  subst hf hw
  simp only [fits, outputs, Bool.and_eq_true, decide_eq_true_eq, Int64.le_iff_toInt_le,
    toInt_mul_of_fits hmul, toInt_add_of_fits hadd, hquarter, Within]

theorem toInt_doubled {n most : Int64} (h : Fits (2 * n.toInt)) :
    (min (2 * n) most).toInt = min (2 * n.toInt) most.toInt := by
  rw [toInt_min, toInt_mul_of_fits (show Fits ((2 : Int64).toInt * n.toInt) from h)]
  rfl

/-- What growth keeps: the sides are within their bounds, and the shape fits unless it is the first
one. -/
structure Grown (budget maxFilters maxWindows : Int64) (k : Microkernel) : Prop where
  bounded : k.Bounded maxFilters maxWindows
  within : k = ⟨1, 1⟩ ∨ Within budget.toInt k.filters.toInt k.windows.toInt

/-- The products that are compared with the registers are words. -/
def Tried (maxFilters maxWindows : Int64) (k : Microkernel) : Prop :=
  Fits (min (2 * k.filters.toInt) maxFilters.toInt * k.windows.toInt) ∧
  Fits (k.filters.toInt * min (2 * k.windows.toInt) maxWindows.toInt)

namespace Grown

/-- Even with both sides doubled, nothing wraps around in the sum of the sides. -/
theorem doubled (hk : Grown budget maxFilters maxWindows k) :
    Fits (2 * k.filters.toInt + 2 * k.windows.toInt) ∧
    (min (2 * k.filters) maxFilters).toInt = min (2 * k.filters.toInt) maxFilters.toInt ∧
    (min (2 * k.windows) maxWindows).toInt = min (2 * k.windows.toInt) maxWindows.toInt := by
  have hsides : Fits (2 * k.filters.toInt + 2 * k.windows.toInt) := by
    obtain hone | ⟨-, hsum⟩ := hk.within
    · rw [hone]
      exact ⟨by decide, by decide⟩
    · have hbudget := fits_toInt budget
      have hf := hk.bounded.one_le_filters
      have hw := hk.bounded.one_le_windows
      rw [Fits] at hbudget ⊢
      omega
  have hf := hk.bounded.one_le_filters
  have hw := hk.bounded.one_le_windows
  exact ⟨hsides, toInt_doubled (fits_of_le (by omega) (by omega) hsides),
    toInt_doubled (fits_of_le (by omega) (by omega) hsides)⟩

variable (hk : Grown budget maxFilters maxWindows k) (hbudget : 0 ≤ budget.toInt)
  (htried : k.Tried maxFilters maxWindows)

include hk hbudget htried

/-- Whether a larger shape fits, in integers. -/
theorem fits_iff :
    (fits budget { k with filters := min (2 * k.filters) maxFilters } = true ↔
      Within budget.toInt (min (2 * k.filters.toInt) maxFilters.toInt) k.windows.toInt) ∧
    (fits budget { k with windows := min (2 * k.windows) maxWindows } = true ↔
      Within budget.toInt k.filters.toInt (min (2 * k.windows.toInt) maxWindows.toInt)) := by
  obtain ⟨hsides, hmoref, hmorew⟩ := hk.doubled
  obtain ⟨hf, hmaxf, hw, hmaxw⟩ := hk.bounded
  constructor
  · exact Microkernel.fits_iff hbudget hmoref rfl htried.1 (fits_of_le (by omega) (by omega) hsides)
  · exact Microkernel.fits_iff hbudget rfl hmorew htried.2 (fits_of_le (by omega) (by omega) hsides)

/-- One step of growth. -/
theorem larger (h : k.larger? budget maxFilters maxWindows = some k') :
    Grown budget maxFilters maxWindows k' := by
  refine ⟨hk.bounded.larger h, .inr ?_⟩
  obtain ⟨-, hmoref, hmorew⟩ := hk.doubled
  obtain ⟨hfilters, hwindows⟩ := hk.fits_iff hbudget htried
  obtain ⟨⟨rfl, -⟩ | ⟨rfl, -⟩, hfits⟩ := larger?_cases h
  · exact hmorew ▸ hwindows.1 hfits
  · exact hmoref ▸ hfilters.1 hfits

end Grown

/-- **Growth ends, in a shape that fits and of which no side can be doubled.**  `grow` is given as
many steps as both bounds together are large, and every step enlarges one side, so that it stops for
want of a larger shape and not of steps.  `larger?` tries both sides, and answers nothing just if
neither fits. -/
theorem ofProblem_maximal {p : Problem} {a : Arch} (hp : p.validate = .ok ())
    (ha : a.validate = .ok ()) (hwindows : Fits (p.output.height.toInt * p.output.width.toInt))
    (hbudget : Fits (a.vectorRegisters.toInt * p.vectorWidth.toInt))
    (htried : ∀ k, Grows (a.vectorRegisters * p.vectorWidth) p.outChannels p.windows ⟨1, 1⟩ k →
      k.Tried p.outChannels p.windows) :
    let k := ofProblem p a
    let b := a.vectorRegisters.toInt * p.vectorWidth.toInt
    let nf := k.filters.toInt
    let nw := k.windows.toInt
    let moreFilters := min (2 * nf) p.outChannels.toInt
    let moreWindows := min (2 * nw) (p.output.height.toInt * p.output.width.toInt)
    (Grows (a.vectorRegisters * p.vectorWidth) p.outChannels p.windows ⟨1, 1⟩ k ∧
      k.larger? (a.vectorRegisters * p.vectorWidth) p.outChannels p.windows = none) ∧
    (1 ≤ nf ∧ nf ≤ p.outChannels.toInt) ∧
      (1 ≤ nw ∧ nw ≤ p.output.height.toInt * p.output.width.toInt) ∧
    k.outputs.toInt = nf * nw ∧ (k = ⟨1, 1⟩ ∨ Within b nf nw) ∧
    (nf < moreFilters → ¬ Within b moreFilters nw) ∧
      (nw < moreWindows → ¬ Within b nf moreWindows) := by
  have hpos := Problem.positive_of_validate hp
  have hregisters := Arch.positive_of_validate ha a.vectorRegisters (by simp [Arch.fields])
  have hnw := toInt_windows hwindows
  have hb : (a.vectorRegisters * p.vectorWidth).toInt = a.vectorRegisters.toInt *
      p.vectorWidth.toInt :=
    toInt_mul_of_fits hbudget
  have hb₀ : 0 ≤ (a.vectorRegisters * p.vectorWidth).toInt :=
    hb ▸ Int.le_of_lt (one_le_mul_of_one_le_of_one_le hregisters hpos.vectorWidth)
  have hfirst : Bounded p.outChannels p.windows ⟨1, 1⟩ :=
    ⟨le_rfl, hpos.outChannels, le_rfl,
      hnw ▸ one_le_mul_of_one_le_of_one_le hpos.outputHeight hpos.outputWidth⟩
  have hgrown {k : Microkernel}
      (h : Grows (a.vectorRegisters * p.vectorWidth) p.outChannels p.windows ⟨1, 1⟩ k) :
      Grown (a.vectorRegisters * p.vectorWidth) p.outChannels p.windows k := by
    induction h with
    | refl => exact ⟨hfirst, .inl rfl⟩
    | tail hsteps hstep ih => exact ih.larger hb₀ (htried _ hsteps) hstep
  have hreach : Grows (a.vectorRegisters * p.vectorWidth) p.outChannels p.windows ⟨1, 1⟩
      (ofProblem p a) :=
    grows_grow _
  have hstop : (ofProblem p a).larger? (a.vectorRegisters * p.vectorWidth) p.outChannels p.windows =
      none :=
    grow_stops hfirst (by have : (1 : Int64).toInt = 1 := rfl; dsimp only; omega)
  have hk := hgrown hreach
  obtain ⟨hsides, hmoref, hmorew⟩ := hk.doubled
  obtain ⟨hfilters, hwindows⟩ := hk.fits_iff hb₀ (htried _ hreach)
  obtain ⟨hnof, hnow⟩ := larger?_eq_none hstop
  rw [Int64.lt_iff_toInt_lt, hmoref, hfilters, hb] at hnof
  rw [Int64.lt_iff_toInt_lt, hmorew, hwindows, hb, hnw] at hnow
  obtain ⟨⟨hf, hmaxf, hw, hmaxw⟩, hwithin⟩ := hk
  rw [hb] at hwithin
  refine ⟨⟨hreach, hstop⟩, ⟨hf, hmaxf⟩, ⟨hw, hnw ▸ hmaxw⟩, toInt_mul_of_fits ?_, hwithin,
    hnof, hnow⟩
  obtain hone | hwithin := hwithin
  · rw [hone]
    exact ⟨by decide, by decide⟩
  · exact fits_of_le (Int.le_of_lt (one_le_mul_of_one_le_of_one_le hf hw)) hwithin.1 hbudget

/-- Nothing wraps around as long as the filters times the windows of the problem are a word. -/
theorem tried_of_fits (hone : Bounded maxFilters maxWindows ⟨1, 1⟩)
    (h : Fits (maxFilters.toInt * maxWindows.toInt))
    (hk : Grows budget maxFilters maxWindows ⟨1, 1⟩ k) : k.Tried maxFilters maxWindows := by
  have hbounded : k.Bounded maxFilters maxWindows := by
    induction hk with
    | refl => exact hone
    | tail _ hstep ih => exact ih.larger hstep
  obtain ⟨hf, hmaxf, hw, hmaxw⟩ := hbounded
  constructor
  · exact fits_of_le (mul_nonneg (by omega) (by omega))
      (mul_le_mul (min_le_right _ _) hmaxw (by omega) (by omega)) h
  · exact fits_of_le (mul_nonneg (by omega) (by omega))
      (mul_le_mul hmaxf (min_le_right _ _) (by omega) (by omega)) h

/-- Three output channels: the filters stop at their bound, and the windows go on alone. -/
theorem ofProblem_maximal_three :
    ofProblem ⟨1, 3, 3, ⟨3, 3⟩, ⟨8, 8⟩, ⟨1, 1⟩, 4, 4⟩ .standard = ⟨3, 16⟩ ∧ ¬ Within 128 3 32 := by
  have hk : ofProblem ⟨1, 3, 3, ⟨3, 3⟩, ⟨8, 8⟩, ⟨1, 1⟩, 4, 4⟩ .standard = ⟨3, 16⟩ := by
    decide +kernel
  obtain ⟨-, -, -, -, -, -, hwindows⟩ :=
    ofProblem_maximal (p := ⟨1, 3, 3, ⟨3, 3⟩, ⟨8, 8⟩, ⟨1, 1⟩, 4, 4⟩)
    (a := .standard) rfl rfl ⟨by decide, by decide⟩ ⟨by decide, by decide⟩ fun _ =>
      tried_of_fits ⟨by decide, by decide, by decide, by decide⟩ ⟨by decide, by decide⟩
  rw [hk] at hwindows
  exact ⟨hk, hwindows (by decide)⟩

end Microkernel

end ConvNest.Schedule
