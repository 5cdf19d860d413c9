/-
# Schedules fit the caches

`Volume` holds the bytes of the tiles as integers, and the working sets of the cache levels as they
are meant.  The words that the searches compare are these integers as long as nothing wraps around
(`Sized.toInt_l1`, `Measures.l2`, `Measures.l3`).

A search finds a parameter in its range that fits (`search_found`), and finds one if the parameter
one fits (`search_ne_none`), whatever the sizes are in between.  Once a block of channels fits the
first level, one streamed tile is what the first level holds, and one staying tile is what the
second level holds: only the first of the three searches can fail (`fitting?_of_channels`).
-/
import ConvNest.Proofs.WordArith
import ConvNest.Schedule.Analyzer
import Mathlib.Tactic.Ring

namespace ConvNest.Schedule

variable {m n : Int} {p : Problem} {a b c : Int64}

open Word

/-! ## 1. Searches -/

theorem toInt_div_nonneg {n d : Int64} (hn : 0 ≤ n.toInt) (hd : 1 ≤ d.toInt) :
    (n / d).toInt = n.toInt / d.toInt := by
  rw [toInt_div_of_pos (Int64.lt_iff_toInt_lt.2 hd), if_pos (.inl hn), add_zero]

theorem toInt_half {n : Int64} (h : 0 ≤ n.toInt) : (n / 2).toInt = n.toInt / 2 :=
  toInt_div_nonneg h (d := 2) (by decide)

/-- The middle of a range is in the range, and nothing wraps around when it is computed. -/
theorem toInt_middle {low high : Int64} (hlow : 0 ≤ low.toInt) (h : low.toInt ≤ high.toInt) :
    (low + (high - low) / 2).toInt = low.toInt + (high.toInt - low.toInt) / 2 := by
  have hhigh := fits_toInt high
  rw [Fits] at hhigh
  have hsub : (high - low).toInt = high.toInt - low.toInt := toInt_sub_of_fits ⟨by omega, by omega⟩
  have hhalf := toInt_half (n := high - low) (by omega)
  rw [toInt_add_of_fits] <;> rw [hhalf, hsub]
  exact ⟨by omega, by omega⟩

namespace Heuristic

variable {fits : Int64 → Bool} {fuel : Nat} {low high most n : Int64} {found : Option Int64}

/-- A parameter up to a bound that fits. -/
def Finds (fits : Int64 → Bool) (most n : Int64) : Prop :=
  1 ≤ n.toInt ∧ n.toInt ≤ most.toInt ∧ fits n = true

theorem halve_finds (h : halve fits fuel most = some n) : Finds fits most n := by
  induction fuel generalizing most with
  | zero => cases h
  | succ fuel ih =>
    rw [halve] at h
    split at h
    · next hpos =>
      have hpos : 0 < most.toInt := toInt_pos hpos
      split at h
      · next hfits =>
        cases h
        exact ⟨hpos, le_rfl, hfits⟩
      · obtain ⟨hone, hle, hfits⟩ := ih h
        rw [toInt_half hpos.le] at hle
        exact ⟨hone, by omega, hfits⟩
    · cases h

/-- Halving ends at one. -/
theorem halve_ne_none (hone : fits 1 = true) (hpos : 1 ≤ most.toInt) (hfuel : most.toInt ≤ fuel) :
    halve fits fuel most ≠ none := by
  induction fuel generalizing most with
  | zero => omega
  | succ fuel ih =>
    rw [halve, if_pos (show 0 < most from Int64.lt_iff_toInt_lt.2 hpos)]
    split
    · simp
    · next hfits =>
      have hne : most.toInt ≠ 1 := by
        intro heq
        obtain rfl : most = 1 := Int64.toInt_inj.1 heq
        exact hfits hone
      have hhalf := toInt_half (n := most) (by omega)
      exact ih (by omega) (by omega)

/-- A step of a bisection.  The middle is a word, and so is the next one as long as it is below some
word. -/
theorem bisect_succ (fits : Int64 → Bool) (fuel : Nat) (found : Option Int64) (hlow : 1 ≤ low.toInt)
    (hle : low.toInt ≤ high.toInt) :
    ∃ mid : Int64, mid.toInt = low.toInt + (high.toInt - low.toInt) / 2 ∧
      (mid - 1).toInt = mid.toInt - 1 ∧
      (∀ most : Int64, mid.toInt < most.toInt → (mid + 1).toInt = mid.toInt + 1) ∧
      bisect fits (fuel + 1) low high found = if fits mid then
        bisect fits fuel (mid + 1) high (some mid)
        else bisect fits fuel low (mid - 1) found := by
  have hmid := toInt_middle (by omega) hle
  have hunit : (1 : Int64).toInt = 1 := rfl
  have hbound := fits_toInt high
  rw [Fits] at hbound
  refine ⟨_, hmid, toInt_sub_of_fits ⟨by omega, by omega⟩,
    fun most hlt => toInt_add_of_fits ⟨by omega, ?_⟩, ?_⟩
  · have := most.toInt_lt
    omega
  · rw [bisect, if_pos (Int64.le_iff_toInt_le.2 hle)]

/-- Every step of a bisection keeps what was found, and narrows the range.  What does not fit at the
bound is never followed by a larger parameter. -/
theorem bisect_finds (hmost : fits most = false) (hlow : 1 ≤ low.toInt)
    (hhigh : high.toInt ≤ most.toInt) (hfound : ∀ n, found = some n → Finds fits most n)
    (h : bisect fits fuel low high found = some n) :
    Finds fits most n := by
  induction fuel generalizing low high found with
  | zero => exact hfound n h
  | succ fuel ih =>
    by_cases hle : low.toInt ≤ high.toInt
    · obtain ⟨mid, hmid, hback, hnext, hstep⟩ := bisect_succ fits fuel found hlow hle
      rw [hstep] at h
      split at h
      · next hfits =>
        have hne : mid.toInt ≠ most.toInt := by
          intro heq
          rw [Int64.toInt_inj.1 heq, hmost] at hfits
          cases hfits
        have hnext := hnext most (by omega)
        refine ih (by omega) hhigh ?_ h
        rintro m hm
        cases hm
        exact ⟨by omega, by omega, hfits⟩
      · exact ih hlow (by omega) hfound h
    · rw [bisect, if_neg (mt Int64.le_iff_toInt_le.1 hle)] at h
      exact hfound n h

theorem bisect_ne_none_of_found (m : Int64) : bisect fits fuel low high (some m) ≠ none := by
  induction fuel generalizing low high m with
  | zero => simp [bisect]
  | succ fuel ih =>
    simp only [bisect]
    split
    · split
      · exact ih _
      · exact ih m
    · simp

/-- As long as nothing is found the range starts at one, so a bisection does not miss it. -/
theorem bisect_ne_none (hone : fits 1 = true) (hhigh : 1 ≤ high.toInt) (hfuel : high.toInt ≤ fuel) :
    bisect fits fuel 1 high none ≠ none := by
  induction fuel generalizing high with
  | zero => omega
  | succ fuel ih =>
    have hunit : (1 : Int64).toInt = 1 := rfl
    obtain ⟨mid, hmid, hback, -, hstep⟩ := bisect_succ fits fuel none hunit.ge hhigh
    rw [hstep]
    split
    · exact bisect_ne_none_of_found mid
    · next hfits =>
      have hne : mid.toInt ≠ 1 := by
        intro heq
        obtain rfl : mid = 1 := Int64.toInt_inj.1 heq
        exact hfits hone
      exact ih (by omega) (by omega)

variable {h : Heuristic} {size : Int64 → Int64} {capacity : Int64}

/-- **What a search finds is in its range, and fits.** -/
theorem search_found (hs : h.search most size capacity = some n) :
    1 ≤ n.toInt ∧ n.toInt ≤ most.toInt ∧ (size n).toInt ≤ capacity.toInt := by
  unfold search at hs
  simp only at hs
  split at hs
  · cases hs
  next hmost =>
  have hpos : 1 ≤ most.toInt := Int64.le_iff_toInt_le.1 (Int64.not_lt.1 hmost)
  suffices hfinds : Finds (fun n => decide (size n ≤ capacity)) most n from
    ⟨hfinds.1, hfinds.2.1, Int64.le_iff_toInt_le.1 (of_decide_eq_true hfinds.2.2)⟩
  split at hs
  · next hfits =>
    obtain rfl := Option.some.inj hs
    exact ⟨hpos, le_rfl, hfits⟩
  next hfits =>
  split at hs
  · exact bisect_finds (by simpa using hfits) le_rfl le_rfl (by simp) hs
  · obtain ⟨hone, hle, hfits⟩ := halve_finds hs
    rw [toInt_half (by omega)] at hle
    exact ⟨hone, by omega, hfits⟩

/-- **A search does not fail if the parameter one fits**, whatever the sizes are in between. -/
theorem search_ne_none (hmost : 1 ≤ most.toInt) (hone : (size 1).toInt ≤ capacity.toInt) :
    h.search most size capacity ≠ none := by
  have hone : (fun n => decide (size n ≤ capacity)) 1 = true :=
    decide_eq_true (Int64.le_iff_toInt_le.2 hone)
  unfold search
  rw [if_neg (Int64.not_lt.2 (show 1 ≤ most from Int64.le_iff_toInt_le.2 hmost))]
  split
  · simp
  next hfits =>
  split
  · exact bisect_ne_none hone hmost (by omega)
  · have hne : most.toInt ≠ 1 := by
      intro heq
      obtain rfl : most = 1 := Int64.toInt_inj.1 heq
      exact hfits hone
    have hhalf := toInt_half (n := most) (by omega)
    exact halve_ne_none hone (by omega) (by omega)

end Heuristic

/-! ## 2. Microkernels -/

namespace Microkernel

variable {maxFilters maxWindows : Int64}

/-- Both sides of a microkernel are at least one, and at most their bounds. -/
structure Bounded (maxFilters maxWindows : Int64) (k : Microkernel) : Prop where
  one_le_filters : 1 ≤ k.filters.toInt
  filters_le : k.filters.toInt ≤ maxFilters.toInt
  one_le_windows : 1 ≤ k.windows.toInt
  windows_le : k.windows.toInt ≤ maxWindows.toInt

variable {budget : Int64} {k k' : Microkernel}

theorem toInt_min (a b : Int64) : (min a b).toInt = min a.toInt b.toInt := by
  have hle : a ≤ b ↔ a.toInt ≤ b.toInt := Int64.le_iff_toInt_le
  rw [show min a b = if a ≤ b then a else b from rfl]
  split
  · next h => rw [min_eq_left (hle.1 h)]
  · next h => rw [min_eq_right (not_le.1 fun hn => h (hle.2 hn)).le]

/-- A larger shape has one side doubled, or cut to its bound, and fits. -/
theorem larger?_cases (h : k.larger? budget maxFilters maxWindows = some k') :
    (k' = { k with windows := min (2 * k.windows) maxWindows } ∧
      k.windows.toInt < k'.windows.toInt ∨
      k' = { k with filters := min (2 * k.filters) maxFilters } ∧
      k.filters.toInt < k'.filters.toInt) ∧
    k'.fits budget = true := by
  rw [larger?] at h
  simp only [Bool.and_eq_true, decide_eq_true_eq, Int64.lt_iff_toInt_lt] at h
  split at h
  · next hcan =>
    cases h
    exact ⟨.inl ⟨rfl, hcan.1.1⟩, hcan.1.2⟩
  split at h
  · next hcan =>
    cases h
    exact ⟨.inr ⟨rfl, hcan.1⟩, hcan.2⟩
  · cases h

/-- A larger microkernel is within the bounds, even if doubling a side wraps around. -/
theorem Bounded.larger (hk : k.Bounded maxFilters maxWindows)
    (h : k.larger? budget maxFilters maxWindows = some k') :
    k'.Bounded maxFilters maxWindows := by
  obtain ⟨h₁, h₂, h₃, h₄⟩ := hk
  obtain ⟨⟨rfl, hlt⟩ | ⟨rfl, hlt⟩, -⟩ := larger?_cases h
  · exact ⟨h₁, h₂, h₃.trans hlt.le, (toInt_min _ _).trans_le (min_le_right _ _)⟩
  · exact ⟨h₁.trans hlt.le, (toInt_min _ _).trans_le (min_le_right _ _), h₃, h₄⟩

theorem Bounded.grow (hk : k.Bounded maxFilters maxWindows) (fuel : Nat) :
    (Microkernel.grow budget maxFilters maxWindows fuel k).Bounded maxFilters maxWindows := by
  induction fuel generalizing k with
  | zero => exact hk
  | succ fuel ih =>
    rw [Microkernel.grow]
    split
    · next h => exact ih (hk.larger h)
    · exact hk

end Microkernel

/-- The extents that tiles depend on are positive. -/
structure Problem.Positive (p : Problem) : Prop where
  inChannels : 1 ≤ p.inChannels.toInt
  outChannels : 1 ≤ p.outChannels.toInt
  filterHeight : 1 ≤ p.filter.height.toInt
  filterWidth : 1 ≤ p.filter.width.toInt
  outputHeight : 1 ≤ p.output.height.toInt
  outputWidth : 1 ≤ p.output.width.toInt
  vectorWidth : 1 ≤ p.vectorWidth.toInt
  elementSize : 1 ≤ p.elementSize.toInt

theorem Problem.positive_of_validate (h : p.validate = .ok ()) : p.Positive := by
  rw [Problem.validate] at h
  split at h
  · cases h
  next hnone =>
  have hpos (f : String × Int64) (hf : f ∈ p.fields) : 1 ≤ f.2.toInt := by
    have hf := List.find?_eq_none.1 hnone f hf
    rw [decide_eq_true_eq, Int64.le_iff_toInt_le, not_le] at hf
    exact hf
  simp only [Problem.fields, List.forall_mem_cons] at hpos
  obtain ⟨-, hic, hoc, hfh, hfw, hoh, how, -, -, hv, he, -⟩ := hpos
  exact ⟨hic, hoc, hfh, hfw, hoh, how, hv, he⟩

theorem Arch.positive_of_validate {a : Arch} (h : a.validate = .ok ()) :
    ∀ n ∈ a.fields, 1 ≤ n.toInt := by
  rw [Arch.validate] at h
  split at h
  · next hvalid => exact fun n hn => toInt_pos (of_decide_eq_true (List.all_eq_true.1 hvalid n hn))
  · cases h

theorem Problem.Positive.tile (h : p.Positive) {c : Int} (hn : 1 ≤ n) (hc : 1 ≤ c) :
    1 ≤ n * (p.filter.height.toInt * p.filter.width.toInt) * p.elementSize.toInt * c :=
  one_le_mul_of_one_le_of_one_le (one_le_mul_of_one_le_of_one_le (one_le_mul_of_one_le_of_one_le hn
    (one_le_mul_of_one_le_of_one_le h.filterHeight h.filterWidth)) h.elementSize) hc

theorem toInt_windows (h : Fits (p.output.height.toInt * p.output.width.toInt)) :
    p.windows.toInt = p.output.height.toInt * p.output.width.toInt := toInt_mul_of_fits h

/-- **The microkernel has at least one filter and one window, and no more than the problem.** -/
theorem Analyzer.microkernel_bounded {z : Analyzer} (hoc : 1 ≤ p.outChannels.toInt)
    (hwindows : 1 ≤ p.windows.toInt)
    (hfixed : ∀ k, z.fixed = some k → 0 < k.filters ∧ 0 < k.windows) :
    (z.microkernel p).Bounded p.outChannels p.windows := by
  rw [microkernel]
  split
  · next k hk =>
    obtain ⟨hf, hw⟩ := hfixed k hk
    have hf := toInt_pos hf
    have hw := toInt_pos hw
    have hminf := Microkernel.toInt_min k.filters p.outChannels
    have hminw := Microkernel.toInt_min k.windows p.windows
    constructor <;> dsimp only [Microkernel.clamp] <;> omega
  · exact Microkernel.Bounded.grow (k := ⟨1, 1⟩) ⟨le_rfl, hoc, le_rfl, hwindows⟩ _

/-! ## 3. Working sets -/

/-- The bytes of the tiles, as integers. -/
structure Volume where
  input : Int
  filter : Int
  output : Int

namespace Volume

/-- The tiles of a microkernel with a block of channels. -/
def ofMicrokernel (p : Problem) (k : Microkernel) (channels : Int) : Volume where
  input := k.windows.toInt * (p.filter.height.toInt * p.filter.width.toInt) *
    p.elementSize.toInt * channels
  filter := k.filters.toInt * (p.filter.height.toInt * p.filter.width.toInt) *
    p.elementSize.toInt * channels
  output := k.filters.toInt * k.windows.toInt * p.elementSize.toInt

/-- The working set of the first level. -/
def l1 (v : Volume) : Int := v.input + v.filter + v.output

/-- The working set of the second level, with `k2` streamed tiles. -/
def l2 (v : Volume) (s : Strategy) (k2 : Int) : Int :=
  match s with
  | .inputStationary => v.input + k2 * v.filter + k2 * v.output
  | _ => k2 * v.input + v.filter + k2 * v.output

/-- The working set of the third level, with `k2` streamed and `k3` staying tiles. -/
def l3 (v : Volume) (s : Strategy) (k2 k3 : Int) : Int :=
  match s with
  | .inputStationary => k3 * v.input + k2 * v.filter + k2 * k3 * v.output
  | _ => k2 * v.input + k3 * v.filter + k2 * k3 * v.output

variable {v : Volume} {m n : Int} (hi : 0 ≤ v.input) (hf : 0 ≤ v.filter) (ho : 0 ≤ v.output)
  (s : Strategy)

include hi hf ho

/-- Working sets grow with the multipliers. -/
theorem l2_mono (h : m ≤ n) : v.l2 s m ≤ v.l2 s n := by
  have hi := mul_le_mul_of_nonneg_right h hi
  have hf := mul_le_mul_of_nonneg_right h hf
  have ho := mul_le_mul_of_nonneg_right h ho
  cases s <;> simp only [l2] <;> omega

theorem l3_mono {k2 : Int} (hk2 : 0 ≤ k2) (h : m ≤ n) : v.l3 s k2 m ≤ v.l3 s k2 n := by
  have hi := mul_le_mul_of_nonneg_right h hi
  have hf := mul_le_mul_of_nonneg_right h hf
  have ho := mul_le_mul_of_nonneg_right (mul_le_mul_of_nonneg_left h hk2) ho
  cases s <;> simp only [l3] <;> omega

end Volume

/-- A word has a positive integer for its value. -/
def Counts (a : Int64) (n : Int) : Prop := a.toInt = n ∧ 1 ≤ n

namespace Counts

variable {a b : Int64} {m n : Int}

theorem nonneg (h : Counts a n) : 0 ≤ n := Int.le_of_lt h.2

theorem mul (ha : Counts a m) (hb : Counts b n) (h : Fits (m * n)) : Counts (a * b) (m * n) := by
  obtain ⟨rfl, hm⟩ := ha
  obtain ⟨rfl, hn⟩ := hb
  exact ⟨toInt_mul_of_fits h, one_le_mul_of_one_le_of_one_le hm hn⟩

theorem add (ha : Counts a m) (hb : Counts b n) (h : Fits (m + n)) : Counts (a + b) (m + n) := by
  obtain ⟨rfl, hm⟩ := ha
  obtain ⟨rfl, hn⟩ := hb
  exact ⟨toInt_add_of_fits h, by omega⟩

end Counts

/-- What is not negative and no more than a number that fits, fits. -/
theorem fits_of_le (hm : 0 ≤ m) (hle : m ≤ n) (h : Fits n) : Fits m := by
  rw [Fits] at h ⊢
  exact ⟨by omega, by omega⟩

theorem fits_left (hm : 1 ≤ m) (hn : 1 ≤ n) (h : Fits (m * n)) : Fits m :=
  fits_of_le (by omega) (le_mul_of_one_le_right (by omega) hn) h

theorem fits_right (hm : 1 ≤ m) (hn : 1 ≤ n) (h : Fits (m * n)) : Fits n :=
  fits_left hn hm (mul_comm m n ▸ h)

/-- The words of a footprint are the integers of a volume. -/
structure Measures (f : Footprint) (v : Volume) : Prop where
  input : Counts f.input v.input
  filter : Counts f.filter v.filter
  output : Counts f.output v.output

/-- Sums of three products of positive factors do not wrap around if the sum of the products
fits. -/
theorem counts_sum {x y w : Int} (ha : Fits x → Counts a x) (hb : Fits y → Counts b y)
    (hc : Fits w → Counts c w) (hx : 1 ≤ x) (hy : 1 ≤ y) (hw : 1 ≤ w) (h : Fits (x + y + w)) :
    Counts (a + b + c) (x + y + w) := by
  have hxy : Fits (x + y) := fits_of_le (by omega) (by omega) h
  refine ((ha ?_).add (hb ?_) hxy).add (hc ?_) h
  · exact fits_of_le (by omega) (by omega) hxy
  · exact fits_of_le (by omega) (by omega) hxy
  · exact fits_of_le (by omega) (by omega) h

namespace Measures

variable {f : Footprint} {v : Volume} {s : Strategy} {k2 k3 : Int64}

theorem l1 (hf : Measures f v) (h : Fits v.l1) : Counts (f.input + f.filter + f.output) v.l1 :=
  counts_sum (fun _ => hf.input) (fun _ => hf.filter)
    (fun _ => hf.output) hf.input.2 hf.filter.2 hf.output.2 h

/-- The working set of the second level is computed exactly. -/
theorem l2 (hf : Measures f v) (hk : 1 ≤ k2.toInt) (h : Fits (v.l2 s k2.toInt)) :
    (f.l2 s k2).toInt = v.l2 s k2.toInt := by
  have hk : Counts k2 k2.toInt := ⟨rfl, hk⟩
  have hi := one_le_mul_of_one_le_of_one_le hk.2 hf.input.2
  have hw := one_le_mul_of_one_le_of_one_le hk.2 hf.filter.2
  have ho := one_le_mul_of_one_le_of_one_le hk.2 hf.output.2
  cases s with
  | inputStationary =>
    exact (counts_sum (fun _ => hf.input) (hk.mul hf.filter)
      (hk.mul hf.output) hf.input.2 hw ho h).1
  | _ => exact (counts_sum (hk.mul hf.input) (fun _ => hf.filter)
    (hk.mul hf.output) hi hf.filter.2 ho h).1

/-- The working set of the third level is computed exactly. -/
theorem l3 (hf : Measures f v) (hk2 : 1 ≤ k2.toInt) (hk3 : 1 ≤ k3.toInt)
    (h : Fits (v.l3 s k2.toInt k3.toInt)) : (f.l3 s k2 k3).toInt = v.l3 s k2.toInt k3.toInt := by
  have hk2 : Counts k2 k2.toInt := ⟨rfl, hk2⟩
  have hk3 : Counts k3 k3.toInt := ⟨rfl, hk3⟩
  have hboth := one_le_mul_of_one_le_of_one_le hk2.2 hk3.2
  have ho (hfits : Fits (k2.toInt * k3.toInt * v.output)) :
      Counts (k2 * k3 * f.output) (k2.toInt * k3.toInt * v.output) :=
    (hk2.mul hk3 (fits_left hboth hf.output.2 hfits)).mul hf.output hfits
  have ho' := one_le_mul_of_one_le_of_one_le hboth hf.output.2
  cases s with
  | inputStationary =>
    exact (counts_sum (hk3.mul hf.input)
      (hk2.mul hf.filter) ho (one_le_mul_of_one_le_of_one_le hk3.2 hf.input.2)
      (one_le_mul_of_one_le_of_one_le hk2.2 hf.filter.2) ho' h).1
  | _ => exact (counts_sum (hk2.mul hf.input)
    (hk3.mul hf.filter) ho (one_le_mul_of_one_le_of_one_le hk2.2 hf.input.2)
      (one_le_mul_of_one_le_of_one_le hk3.2 hf.filter.2) ho' h).1

end Measures

/-- A product of extents is computed exactly if it fits. -/
theorem counts_tile {n h w e : Int64} (hn : 1 ≤ n.toInt) (hh : 1 ≤ h.toInt) (hw : 1 ≤ w.toInt)
    (he : 1 ≤ e.toInt) (hc : 1 ≤ c.toInt)
    (hfits : Fits (n.toInt * (h.toInt * w.toInt) * e.toInt * c.toInt)) :
    Counts (n * (h * w) * e * c) (n.toInt * (h.toInt * w.toInt) * e.toInt * c.toInt) := by
  have harea := one_le_mul_of_one_le_of_one_le hh hw
  have hrow := one_le_mul_of_one_le_of_one_le hn harea
  have hbytes := one_le_mul_of_one_le_of_one_le hrow he
  have hfits₃ := fits_left hbytes hc hfits
  have hfits₂ := fits_left hrow he hfits₃
  have hfits₁ := fits_right hn harea hfits₂
  have harea' : Counts (h * w) (h.toInt * w.toInt) := Counts.mul ⟨rfl, hh⟩ ⟨rfl, hw⟩ hfits₁
  have hrow' : Counts (n * (h * w)) (n.toInt * (h.toInt * w.toInt)) :=
    Counts.mul ⟨rfl, hn⟩ harea' hfits₂
  exact (hrow'.mul ⟨rfl, he⟩ hfits₃).mul ⟨rfl, hc⟩ hfits

/-- The number of tiles that cover `n` items, `k` at a time. -/
def tileCount (n k : Int) : Int := (n + k - 1) / k

theorem toInt_ceilDiv (ha : 0 ≤ a.toInt) (hb : 1 ≤ b.toInt) (h : Fits (a.toInt + b.toInt)) :
    (ceilDiv a b).toInt = tileCount a.toInt b.toInt := by
  have hunit : (1 : Int64).toInt = 1 := rfl
  have hadd := toInt_add_of_fits h
  have hbound := h
  rw [Fits] at hbound
  have hsub : (a + b - 1).toInt = a.toInt + b.toInt - 1 := by
    rw [toInt_sub_of_fits] <;> rw [hadd, hunit]
    exact ⟨by omega, by omega⟩
  rw [ceilDiv, tileCount]
  split
  · next hle =>
    have hzero : a.toInt = 0 := le_antisymm (Int64.le_iff_toInt_le.1 hle) ha
    rw [hzero, Int.ediv_eq_zero_of_lt (by omega) (by omega)]
    rfl
  · rw [toInt_div_nonneg (by omega) hb, hsub]

theorem one_le_tileCount {k : Int} (hn : 1 ≤ n) (hk : 1 ≤ k) : 1 ≤ tileCount n k :=
  (Int.le_ediv_iff_mul_le (by omega)).2 (by omega)

/-- Tiles are counted exactly, and there is at least one of each kind. -/
theorem counts_tiles {k : Microkernel} (hp : p.Positive) (hf : 1 ≤ k.filters.toInt)
    (hw : 1 ≤ k.windows.toInt) (hwindows : Fits (p.output.height.toInt * p.output.width.toInt))
    (hin : Fits (p.output.height.toInt * p.output.width.toInt + k.windows.toInt))
    (hfilter : Fits (p.outChannels.toInt + k.filters.toInt)) :
    Counts (Footprint.ofMicrokernel p k).inputTiles
      (tileCount (p.output.height.toInt * p.output.width.toInt) k.windows.toInt) ∧
    Counts (Footprint.ofMicrokernel p k).filterTiles
      (tileCount p.outChannels.toInt k.filters.toInt) := by
  have hnw := toInt_windows hwindows
  have hpos := one_le_mul_of_one_le_of_one_le hp.outputHeight hp.outputWidth
  rw [← hnw] at hin hpos ⊢
  exact ⟨⟨toInt_ceilDiv (Int.le_of_lt hpos) hw hin, one_le_tileCount hpos hw⟩,
    ⟨toInt_ceilDiv (Int.le_of_lt hp.outChannels) hf hfilter, one_le_tileCount hp.outChannels hf⟩⟩

/-- The numbers of tiles that the first and the second multiplier can be at most, as integers. -/
def Problem.tileCounts (p : Problem) (k : Microkernel) : Strategy → Int × Int
  | .weightStationary => (tileCount (p.output.height.toInt * p.output.width.toInt) k.windows.toInt,
      tileCount p.outChannels.toInt k.filters.toInt)
  | _ => (tileCount p.outChannels.toInt k.filters.toInt,
      tileCount (p.output.height.toInt * p.output.width.toInt) k.windows.toInt)

/-! ## 4. Schedules -/

/-- Nothing wraps around when tiles are counted, and in the size that the first search tries first,
which is the largest one. -/
structure Problem.Unwrapped (p : Problem) (k : Microkernel) : Prop where
  windows : Fits (p.output.height.toInt * p.output.width.toInt)
  inputTiles : Fits (p.output.height.toInt * p.output.width.toInt + k.windows.toInt)
  filterTiles : Fits (p.outChannels.toInt + k.filters.toInt)
  l1 : Fits (Volume.ofMicrokernel p k p.inChannels.toInt).l1

/-- A valid problem with a microkernel whose tiles are counted without wrapping around. -/
structure Sized (p : Problem) (k : Microkernel) : Prop extends p.Unwrapped k where
  positive : p.Positive
  bounded : k.Bounded p.outChannels p.windows

namespace Sized

variable {p : Problem} {k : Microkernel} {c : Int64}

/-- A volume grows with its channels. -/
theorem l1_mono (h : Sized p k) {m n : Int} (hle : m ≤ n) :
    (Volume.ofMicrokernel p k m).l1 ≤ (Volume.ofMicrokernel p k n).l1 := by
  have he := h.positive.elementSize
  have harea := one_le_mul_of_one_le_of_one_le h.positive.filterHeight h.positive.filterWidth
  have hrow {n : Int} (hn : 1 ≤ n) :=
    one_le_mul_of_one_le_of_one_le (one_le_mul_of_one_le_of_one_le hn harea) he
  have hi := mul_le_mul_of_nonneg_left hle (Int.le_of_lt (hrow h.bounded.one_le_windows))
  have hf := mul_le_mul_of_nonneg_left hle (Int.le_of_lt (hrow h.bounded.one_le_filters))
  exact Int.add_le_add_right (Int.add_le_add hi hf) _

section

variable (h : Sized p k) (hc : 1 ≤ c.toInt) (hle : c.toInt ≤ p.inChannels.toInt)

include h hc hle

/-- The tiles with a block of channels are measured exactly. -/
theorem measures :
    Measures ((Footprint.ofMicrokernel p k).withChannels c) (Volume.ofMicrokernel p k c.toInt) ∧
      Fits (Volume.ofMicrokernel p k c.toInt).l1 := by
  have he := h.positive.elementSize
  have hi := h.positive.tile h.bounded.one_le_windows hc
  have hf := h.positive.tile h.bounded.one_le_filters hc
  have hsides := one_le_mul_of_one_le_of_one_le h.bounded.one_le_filters h.bounded.one_le_windows
  have ho := one_le_mul_of_one_le_of_one_le hsides he
  have hl1 : Fits (Volume.ofMicrokernel p k c.toInt).l1 := by
    refine fits_of_le ?_ (h.l1_mono hle) h.l1
    simp only [Volume.l1, Volume.ofMicrokernel]
    omega
  have hpart {m : Int} (hm : 1 ≤ m) (hle : m ≤ (Volume.ofMicrokernel p k c.toInt).l1) : Fits m :=
    fits_of_le (by omega) hle hl1
  simp only [Volume.l1, Volume.ofMicrokernel] at hpart
  have hofits := hpart ho (by omega)
  refine ⟨⟨?_, ?_, ?_⟩, hl1⟩
  · exact counts_tile h.bounded.one_le_windows h.positive.filterHeight h.positive.filterWidth he hc
      (hpart hi (by omega))
  · exact counts_tile h.bounded.one_le_filters h.positive.filterHeight h.positive.filterWidth he hc
      (hpart hf (by omega))
  · exact (Counts.mul ⟨rfl, h.bounded.one_le_filters⟩ ⟨rfl, h.bounded.one_le_windows⟩
      (fits_left hsides he hofits)).mul ⟨rfl, he⟩ hofits

/-- The working set of the first level is computed exactly. -/
theorem toInt_l1 :
    ((Footprint.ofMicrokernel p k).l1 c).toInt = (Volume.ofMicrokernel p k c.toInt).l1 :=
  ((h.measures hc hle).1.l1 (h.measures hc hle).2).1

end

theorem multiplied (h : Sized p k) (s : Strategy) :
    (((Footprint.ofMicrokernel p k).withChannels c).multiplied s).1.toInt = (p.tileCounts k s).1 ∧
    (((Footprint.ofMicrokernel p k).withChannels c).multiplied s).2.toInt = (p.tileCounts k s).2 ∧
    1 ≤ (p.tileCounts k s).1 ∧ 1 ≤ (p.tileCounts k s).2 := by
  obtain ⟨hin, hfilter⟩ :=
    counts_tiles h.positive h.bounded.one_le_filters h.bounded.one_le_windows h.windows
    h.inputTiles h.filterTiles
  cases s with
  | weightStationary => exact ⟨hin.1, hfilter.1, hin.2, hfilter.2⟩
  | _ => exact ⟨hfilter.1, hin.1, hfilter.2, hin.2⟩

end Sized

namespace Analyzer

variable {z : Analyzer} {p : Problem} {k : Microkernel} {s : Strategy} {k2 k3 c : Int64}

/-- The three searches, one after the other. -/
theorem fitting?_eq_some : z.fitting? p k s = some (k2, k3, c) ↔
    z.heuristic.search p.inChannels (Footprint.ofMicrokernel p k).l1 z.arch.l1 = some c ∧
    z.heuristic.search (((Footprint.ofMicrokernel p k).withChannels c).multiplied s).1
      (((Footprint.ofMicrokernel p k).withChannels c).l2 s) z.arch.l2 = some k2 ∧
    z.heuristic.search (((Footprint.ofMicrokernel p k).withChannels c).multiplied s).2
      (((Footprint.ofMicrokernel p k).withChannels c).l3 s k2) z.arch.l3 = some k3 := by
  simp only [fitting?, Option.bind_eq_bind, Option.bind_eq_some_iff, Option.pure_def,
    Option.some.injEq, Prod.mk.injEq]
  constructor
  · rintro ⟨c', hc, k2', h2, k3', h3, rfl, rfl, rfl⟩
    exact ⟨hc, h2, h3⟩
  · rintro ⟨hc, h2, h3⟩
    exact ⟨c, hc, k2, h2, k3, h3, rfl, rfl, rfl⟩

/-- One streamed tile is what the first level holds. -/
theorem l2_one (f : Footprint) (s : Strategy) (c : Int64) : (f.withChannels c).l2 s 1 = f.l1 c := by
  cases s <;> simp [Footprint.l2, Footprint.l1, Footprint.withChannels]

/-- One staying tile is what the second level holds. -/
theorem l3_one (f : Footprint) (s : Strategy) (k2 : Int64) : f.l3 s k2 1 = f.l2 s k2 := by
  cases s <;> simp [Footprint.l3, Footprint.l2]

/-- **If a block of channels fits the first level, the other searches find something.** -/
theorem fitting?_of_channels (h : Sized p k) (h12 : z.arch.l1 ≤ z.arch.l2)
    (h23 : z.arch.l2 ≤ z.arch.l3)
    (hc : z.heuristic.search p.inChannels (Footprint.ofMicrokernel p k).l1 z.arch.l1 = some c) :
    ∃ k2 k3, z.fitting? p k s = some (k2, k3, c) := by
  obtain ⟨hm2, hm3, hone2, hone3⟩ := h.multiplied (c := c) s
  have h12 := Int64.le_iff_toInt_le.1 h12
  have h23 := Int64.le_iff_toInt_le.1 h23
  obtain ⟨-, -, hl1⟩ := Heuristic.search_found hc
  rw [← l2_one _ s] at hl1
  obtain ⟨k2, h2⟩ := Option.ne_none_iff_exists'.1 (Heuristic.search_ne_none
    (h := z.heuristic) (by rw [hm2]; exact hone2) (hl1.trans h12))
  obtain ⟨-, -, hl2⟩ := Heuristic.search_found h2
  rw [← l3_one] at hl2
  obtain ⟨k3, h3⟩ := Option.ne_none_iff_exists'.1 (Heuristic.search_ne_none
    (h := z.heuristic) (by rw [hm3]; exact hone3) (hl2.trans h23))
  exact ⟨k2, k3, fitting?_eq_some.2 ⟨hc, h2, h3⟩⟩

section

variable (hp : p.withDefaults.validate = .ok ()) (ha : z.arch.validate = .ok ())
  (hfixed : ∀ k, z.fixed = some k → 0 < k.filters ∧ 0 < k.windows)

include hp ha hfixed

/-- A valid problem is prepared. -/
theorem prepare_eq : z.prepare p = .ok p.withDefaults := by
  have hcheck (k : Microkernel) (hk : z.fixed = some k) : ¬ (k.filters ≤ 0 ∨ k.windows ≤ 0) := by
    obtain ⟨hf, hw⟩ := hfixed k hk
    exact not_or.2 ⟨Int64.not_le.2 hf, Int64.not_le.2 hw⟩
  unfold prepare
  simp only [hp, ha]
  cases hk : z.fixed with
  | none => rfl
  | some k =>
    show (if _ then _ else _) = _
    rw [if_neg (hcheck k hk)]
    rfl

/-- What a valid analyzer offers for a valid problem. -/
theorem candidates_eq :
    z.candidates p = .ok ⟨z.microkernel p.withDefaults,
      z.evaluate p.withDefaults (z.microkernel p.withDefaults) .inputStationary,
      z.evaluate p.withDefaults (z.microkernel p.withDefaults) .weightStationary⟩ := by
  rw [candidates, prepare_eq hp ha hfixed]
  rfl

end

theorem sized (hp : p.validate = .ok ())
    (hfixed : ∀ k, z.fixed = some k → 0 < k.filters ∧ 0 < k.windows)
    (hx : p.Unwrapped (z.microkernel p)) : Sized p (z.microkernel p) where
  toUnwrapped := hx
  positive := Problem.positive_of_validate hp
  bounded := by
    have hpos := Problem.positive_of_validate hp
    refine microkernel_bounded hpos.outChannels ?_ hfixed
    rw [toInt_windows hx.windows]
    exact one_le_mul_of_one_le_of_one_le hpos.outputHeight hpos.outputWidth

end Analyzer

/-- A schedule of a strategy is within the bounds of a problem, and its working sets within the
caches. -/
structure Decision.Respects (d : Decision) (p : Problem) (a : Arch) (k : Microkernel)
    (s : Strategy) : Prop where
  strategy : d.strategy = s
  tileC : 1 ≤ d.tileC.toInt ∧ d.tileC.toInt ≤ p.inChannels.toInt
  k2 : 1 ≤ d.k2.toInt ∧ d.k2.toInt ≤ (p.tileCounts k s).1
  k3 : 1 ≤ d.k3.toInt ∧ d.k3.toInt ≤ (p.tileCounts k s).2
  extraK2 : d.extraK2.toInt = (p.tileCounts k s).1 % d.k2.toInt
  extraK3 : d.extraK3.toInt = (p.tileCounts k s).2 % d.k3.toInt
  extraTileC : d.extraTileC.toInt = p.inChannels.toInt % d.tileC.toInt
  caches : d.fallback = false →
    (Volume.ofMicrokernel p k d.tileC.toInt).l1 ≤ a.l1.toInt ∧
    (Volume.ofMicrokernel p k d.tileC.toInt).l2 s d.k2.toInt ≤ a.l2.toInt ∧
    (Volume.ofMicrokernel p k d.tileC.toInt).l3 s d.k2.toInt d.k3.toInt ≤ a.l3.toInt
  fallback : d.fallback = true → d.k2 = 1 ∧ d.k3 = 1 ∧ d.tileC = p.inChannels

namespace Analyzer

variable {z : Analyzer} {p : Problem} {k : Microkernel} {s : Strategy} {k2 k3 c : Int64}

theorem toInt_mod_nonneg {a b : Int64} (ha : 0 ≤ a.toInt) (hb : 1 ≤ b.toInt) :
    (a % b).toInt = a.toInt % b.toInt := by
  rw [toInt_mod_of_pos (Int64.lt_iff_toInt_lt.2 hb), if_pos (.inl ha), sub_zero]

/-- What is left over, in integers. -/
theorem decide_extras (h : Sized p k) (hk2 : 1 ≤ k2.toInt) (hk3 : 1 ≤ k3.toInt) (hc : 1 ≤ c.toInt) :
    (z.decide p k s k2 k3 c).extraK2.toInt = (p.tileCounts k s).1 % k2.toInt ∧
    (z.decide p k s k2 k3 c).extraK3.toInt = (p.tileCounts k s).2 % k3.toInt ∧
    (z.decide p k s k2 k3 c).extraTileC.toInt = p.inChannels.toInt % c.toInt := by
  obtain ⟨hm2, hm3, hone2, hone3⟩ := h.multiplied (c := c) s
  have hpos2 : 0 ≤ (((Footprint.ofMicrokernel p k).withChannels c).multiplied s).1.toInt := by omega
  have hpos3 : 0 ≤ (((Footprint.ofMicrokernel p k).withChannels c).multiplied s).2.toInt := by omega
  rw [← hm2, ← hm3]
  exact ⟨toInt_mod_nonneg hpos2 hk2, toInt_mod_nonneg hpos3 hk3,
    toInt_mod_nonneg (Int.le_of_lt h.positive.inChannels) hc⟩

/-- Nothing wraps around in the sizes that the second and the third search try first, which are the
largest ones. -/
def Exact (z : Analyzer) (p : Problem) (k : Microkernel) (s : Strategy) : Prop :=
  ∀ k2 k3 c, z.fitting? p k s = some (k2, k3, c) →
    Fits ((Volume.ofMicrokernel p k c.toInt).l2 s (p.tileCounts k s).1) ∧
    Fits ((Volume.ofMicrokernel p k c.toInt).l3 s k2.toInt (p.tileCounts k s).2)

/-- What the searches find is within the caches. -/
theorem fitting?_caches (h : Sized p k) (hx : z.Exact p k s)
    (hfit : z.fitting? p k s = some (k2, k3, c)) :
    (1 ≤ c.toInt ∧ c.toInt ≤ p.inChannels.toInt) ∧
    (1 ≤ k2.toInt ∧ k2.toInt ≤ (p.tileCounts k s).1) ∧
    (1 ≤ k3.toInt ∧ k3.toInt ≤ (p.tileCounts k s).2) ∧
    (Volume.ofMicrokernel p k c.toInt).l1 ≤ z.arch.l1.toInt ∧
    (Volume.ofMicrokernel p k c.toInt).l2 s k2.toInt ≤ z.arch.l2.toInt ∧
    (Volume.ofMicrokernel p k c.toInt).l3 s k2.toInt k3.toInt ≤ z.arch.l3.toInt := by
  obtain ⟨hx2, hx3⟩ := hx k2 k3 c hfit
  obtain ⟨h1, h2, h3⟩ := fitting?_eq_some.1 hfit
  obtain ⟨hc, hle, hl1⟩ := Heuristic.search_found h1
  obtain ⟨hk2, hle2, hl2⟩ := Heuristic.search_found h2
  obtain ⟨hk3, hle3, hl3⟩ := Heuristic.search_found h3
  obtain ⟨hm2, hm3, -, -⟩ := h.multiplied (c := c) s
  rw [hm2] at hle2
  rw [hm3] at hle3
  have hf := (h.measures hc hle).1
  have hi := hf.input.nonneg
  have hw := hf.filter.nonneg
  have ho := hf.output.nonneg
  have hpos2 : 0 ≤ (Volume.ofMicrokernel p k c.toInt).l2 s k2.toInt := by
    have := Volume.l2_mono hi hw ho s (show 0 ≤ k2.toInt by omega)
    cases s <;> simp only [Volume.l2] at this ⊢ <;> omega
  have hpos3 : 0 ≤ (Volume.ofMicrokernel p k c.toInt).l3 s k2.toInt k3.toInt := by
    have := mul_nonneg (show 0 ≤ k2.toInt by omega) hi
    have := mul_nonneg (show 0 ≤ k2.toInt by omega) hw
    have := Volume.l3_mono hi hw ho s (show 0 ≤ k2.toInt by omega) (show 0 ≤ k3.toInt by omega)
    cases s <;> simp only [Volume.l3] at this ⊢ <;> omega
  rw [h.toInt_l1 hc hle] at hl1
  rw [hf.l2 hk2 (fits_of_le hpos2 (Volume.l2_mono hi hw ho s hle2) hx2)] at hl2
  rw [hf.l3 hk2 hk3 (fits_of_le hpos3 (Volume.l3_mono hi hw ho s (by omega) hle3) hx3)] at hl3
  exact ⟨⟨hc, hle⟩, ⟨hk2, hle2⟩, ⟨hk3, hle3⟩, hl1, hl2, hl3⟩

/-- The schedule of a strategy respects the bounds and the caches. -/
theorem evaluate_respects (h : Sized p k) (hx : z.Exact p k s) :
    (z.evaluate p k s).Respects p z.arch k s := by
  rw [evaluate]
  split
  · next k2 k3 c hfit =>
    obtain ⟨hc, h2, h3, hcaches⟩ := fitting?_caches h hx hfit
    obtain ⟨he2, he3, hec⟩ := decide_extras (z := z) (s := s) h h2.1 h3.1 hc.1
    exact ⟨rfl, hc, h2, h3, he2, he3, hec, fun _ => hcaches, nofun⟩
  · obtain ⟨-, -, hone2, hone3⟩ := h.multiplied (c := p.inChannels) s
    have hc := h.positive.inChannels
    obtain ⟨he2, he3, hec⟩ := decide_extras (z := z) (s := s) h
      (show 1 ≤ (1 : Int64).toInt from le_rfl) (show 1 ≤ (1 : Int64).toInt from le_rfl) hc
    exact ⟨rfl, ⟨hc, le_rfl⟩, ⟨le_rfl, hone2⟩, ⟨le_rfl, hone3⟩, he2, he3, hec, nofun,
      fun _ => ⟨rfl, rfl, rfl⟩⟩

/-- **Schedules respect the cache capacities.**  A multiplier or a block of channels comes from
`search`, which only gives parameters whose size is within the capacity; the sizes are those of the
tiles, as nothing wraps around.  If a search finds none, the schedule falls back to single tiles of
all channels, for which only the bounds of the problem are promised. -/
theorem candidates_respect (hp : p.withDefaults.validate = .ok ()) (ha : z.arch.validate = .ok ())
    (hfixed : ∀ k, z.fixed = some k → 0 < k.filters ∧ 0 < k.windows)
    (hx : p.withDefaults.Unwrapped (z.microkernel p.withDefaults))
    (hxs : ∀ s, s.valid → z.Exact p.withDefaults (z.microkernel p.withDefaults) s) :
    ∃ c, z.candidates p = .ok c ∧
      (1 ≤ c.microkernel.filters.toInt ∧ c.microkernel.filters.toInt ≤ p.outChannels.toInt) ∧
      (1 ≤ c.microkernel.windows.toInt ∧
        c.microkernel.windows.toInt ≤ p.output.height.toInt * p.output.width.toInt) ∧
      c.inputStationary.Respects p.withDefaults z.arch c.microkernel .inputStationary ∧
      c.weightStationary.Respects p.withDefaults z.arch c.microkernel .weightStationary := by
  have h := sized hp hfixed hx
  have hwindows : (z.microkernel p.withDefaults).windows.toInt ≤
      p.output.height.toInt * p.output.width.toInt :=
    h.bounded.windows_le.trans_eq (toInt_windows hx.windows)
  have hin := evaluate_respects h (hxs .inputStationary rfl)
  have hwt := evaluate_respects h (hxs .weightStationary rfl)
  exact ⟨_, candidates_eq hp ha hfixed, ⟨h.bounded.one_le_filters, h.bounded.filters_le⟩,
    ⟨h.bounded.one_le_windows, hwindows⟩, hin, hwt⟩

/-- Extents that no tile divides. -/
def unevenProblem : Problem := ⟨1, 5, 11, ⟨3, 3⟩, ⟨6, 7⟩, ⟨0, 0⟩, 0, 0⟩

/-- Caches that hold a part of the tiles only. -/
def tightAnalyzer : Analyzer := ⟨⟨1100, 2500, 7000, 1, 2, 3, 4, 64, 8⟩, .binary, none⟩

theorem unevenProblem_unwrapped :
    unevenProblem.withDefaults.Unwrapped
      (tightAnalyzer.microkernel unevenProblem.withDefaults) := by
  have hk : tightAnalyzer.microkernel unevenProblem.withDefaults = ⟨4, 4⟩ := by decide +kernel
  rw [hk]
  exact ⟨⟨by decide, by decide⟩, ⟨by decide, by decide⟩, ⟨by decide, by decide⟩,
    ⟨by decide, by decide⟩⟩

/-- With both strategies something fits, so that neither schedule is the fallback. -/
theorem candidates_respect_uneven : ∃ c, tightAnalyzer.candidates unevenProblem = .ok c ∧
    c.inputStationary.fallback = false ∧ c.weightStationary.fallback = false ∧
    c.inputStationary.Respects unevenProblem.withDefaults tightAnalyzer.arch c.microkernel
      .inputStationary ∧
    c.weightStationary.Respects unevenProblem.withDefaults tightAnalyzer.arch c.microkernel
      .weightStationary := by
  have hin : tightAnalyzer.fitting? unevenProblem.withDefaults ⟨4, 4⟩ .inputStationary =
      some (3, 9, 3) := by
    decide +kernel
  have hwt : tightAnalyzer.fitting? unevenProblem.withDefaults ⟨4, 4⟩ .weightStationary =
      some (4, 3, 3) := by
    decide +kernel
  have hk : tightAnalyzer.microkernel unevenProblem.withDefaults = ⟨4, 4⟩ := by decide +kernel
  obtain ⟨c, hc, -, -, h⟩ := candidates_respect (z := tightAnalyzer)
    (p := unevenProblem) rfl rfl nofun unevenProblem_unwrapped (by
      rw [hk]
      rintro (_ | _ | n) hs k2 k3 c h
      · obtain ⟨rfl, rfl, rfl⟩ : 3 = k2 ∧ 9 = k3 ∧ 3 = c := by simpa [hin] using h
        exact ⟨⟨by decide, by decide⟩, ⟨by decide, by decide⟩⟩
      · obtain ⟨rfl, rfl, rfl⟩ : 4 = k2 ∧ 3 = k3 ∧ 3 = c := by simpa [hwt] using h
        exact ⟨⟨by decide, by decide⟩, ⟨by decide, by decide⟩⟩
      · cases hs)
  have hfits : (tightAnalyzer.candidates unevenProblem).toOption.map
      (fun c => (c.inputStationary.fallback, c.weightStationary.fallback)) =
        some (false, false) := by
    decide +kernel
  rw [hc] at hfits
  obtain ⟨hfin, hfwt⟩ := Prod.mk.inj (Option.some.inj hfits)
  exact ⟨c, hc, hfin, hfwt, h⟩

/-! ## 5. When nothing fits -/

/-- **The first search fails exactly if one channel does not fit the first level.** -/
theorem search_channels_eq_none (h : Sized p k) :
    z.heuristic.search p.inChannels (Footprint.ofMicrokernel p k).l1 z.arch.l1 = none ↔
      z.arch.l1.toInt < (Volume.ofMicrokernel p k 1).l1 := by
  constructor
  · intro hnone
    by_contra hle
    refine Heuristic.search_ne_none h.positive.inChannels ?_ hnone
    rw [h.toInt_l1 (c := 1) le_rfl h.positive.inChannels]
    exact not_lt.1 hle
  · intro hlt
    by_contra hne
    obtain ⟨c, hc⟩ := Option.ne_none_iff_exists'.1 hne
    obtain ⟨hone, hle, hl1⟩ := Heuristic.search_found hc
    rw [h.toInt_l1 hone hle] at hl1
    exact absurd hlt (not_lt.2 ((h.l1_mono hone).trans hl1))

/-- Both the channels of a block and the fallback are decided by the first search alone. -/
theorem evaluate_channels (h : Sized p k) (h12 : z.arch.l1 ≤ z.arch.l2)
    (h23 : z.arch.l2 ≤ z.arch.l3) :
    (z.evaluate p k s).tileC =
      (z.heuristic.search p.inChannels (Footprint.ofMicrokernel p k).l1 z.arch.l1).getD
        p.inChannels ∧
    ((z.evaluate p k s).fallback = true ↔
      z.heuristic.search p.inChannels (Footprint.ofMicrokernel p k).l1 z.arch.l1 = none) := by
  cases hc : z.heuristic.search p.inChannels (Footprint.ofMicrokernel p k).l1 z.arch.l1 with
  | none =>
    have hnone : z.fitting? p k s = none := by
      rw [fitting?]
      simp [hc]
    rw [evaluate, hnone]
    exact ⟨rfl, by simp⟩
  | some c =>
    obtain ⟨k2, k3, hfit⟩ := fitting?_of_channels (s := s) h h12 h23 hc
    rw [evaluate, hfit]
    exact ⟨rfl, by simp [decide]⟩

/-- **Both strategies block channels alike, and fall back exactly if one channel does not fit.**
`fitting?` searches for the channels first, by a size that does not depend on the strategy.  What it
finds fits the first level, and the second and the third are no smaller; so the multiplier one fits
them, and neither of the other two searches fails. -/
theorem candidates_fallback (hp : p.withDefaults.validate = .ok ()) (ha : z.arch.validate = .ok ())
    (hfixed : ∀ k, z.fixed = some k → 0 < k.filters ∧ 0 < k.windows)
    (h12 : z.arch.l1 ≤ z.arch.l2) (h23 : z.arch.l2 ≤ z.arch.l3)
    (hx : p.withDefaults.Unwrapped (z.microkernel p.withDefaults)) :
    ∃ c, z.candidates p = .ok c ∧ c.inputStationary.tileC = c.weightStationary.tileC ∧
      ∀ d ∈ [c.inputStationary, c.weightStationary], d.fallback = true ↔
        z.arch.l1.toInt < (c.microkernel.windows.toInt + c.microkernel.filters.toInt) *
            (p.filter.height.toInt * p.filter.width.toInt) * p.withDefaults.elementSize.toInt +
          c.microkernel.filters.toInt * c.microkernel.windows.toInt *
            p.withDefaults.elementSize.toInt := by
  have h := sized hp hfixed hx
  have hone : (Volume.ofMicrokernel p.withDefaults (z.microkernel p.withDefaults) 1).l1 =
      ((z.microkernel p.withDefaults).windows.toInt +
        (z.microkernel p.withDefaults).filters.toInt) *
          (p.filter.height.toInt * p.filter.width.toInt) * p.withDefaults.elementSize.toInt +
        (z.microkernel p.withDefaults).filters.toInt *
          (z.microkernel p.withDefaults).windows.toInt * p.withDefaults.elementSize.toInt := by
    simp only [Volume.l1, Volume.ofMicrokernel]
    rw [show p.withDefaults.filter = p.filter from rfl]
    ring
  have hin := evaluate_channels (s := .inputStationary) h h12 h23
  have hwt := evaluate_channels (s := .weightStationary) h h12 h23
  refine ⟨_, candidates_eq hp ha hfixed, hin.1.trans hwt.1.symm, ?_⟩
  simp only [List.forall_mem_cons, List.not_mem_nil, false_implies, implies_true, and_true]
  rw [← hone, ← search_channels_eq_none h]
  exact ⟨hin.2, hwt.2⟩

theorem candidates_fallback_uneven : ∃ c, tightAnalyzer.candidates unevenProblem = .ok c ∧
    c.inputStationary.tileC = c.weightStationary.tileC ∧ c.inputStationary.fallback = false := by
  obtain ⟨c, hc, htile, hall⟩ := candidates_fallback (z := tightAnalyzer)
    (p := unevenProblem) rfl rfl nofun (by decide) (by decide) unevenProblem_unwrapped
  have hk : c.microkernel = ⟨4, 4⟩ := by
    have hsame := candidates_eq (z := tightAnalyzer) (p := unevenProblem) rfl rfl nofun
    obtain rfl := Except.ok.inj (hsame.symm.trans hc)
    show tightAnalyzer.microkernel unevenProblem.withDefaults = _
    decide +kernel
  refine ⟨c, hc, htile, Bool.eq_false_iff.2 fun hfall => ?_⟩
  have hlt := (hall _ List.mem_cons_self).1 hfall
  rw [hk] at hlt
  exact absurd hlt (by decide)

end Analyzer

end ConvNest.Schedule
