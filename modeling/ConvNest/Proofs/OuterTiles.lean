/-
# Outer tiles

An outer tile is a microkernel taken a number of times along each side.  A search gives no
multiplier above the number of tiles; if that number was computed from a sum that wrapped around, it
is not positive and nothing is found.  So the products of all schedules that are searched for are
exact (`evaluate_tiles`).

A forced multiplier has no upper bound, and is exact just as long as the product is a word
(`outer_tiles`); else the tile may be empty, and its side is not tiled (`override_untiled`).
-/
import ConvNest.Conv.Blocking
import ConvNest.Proofs.CacheFit

namespace ConvNest.Schedule

open Word

/-- The multipliers of the filters and of the windows. -/
def Decision.multipliers (d : Decision) : Int64 × Int64 :=
  match d.strategy with
  | .inputStationary => (d.k2, d.k3)
  | _ => (d.k3, d.k2)

/-- The outer tiles are as large as the multipliers say, and both sides are tiled. -/
structure Decision.Tiles (d : Decision) (k : Microkernel) : Prop where
  filters : (d.filterTile k).toInt = k.filters.toInt * d.multipliers.1.toInt
  windows : (d.windowTile k).toInt = k.windows.toInt * d.multipliers.2.toInt
  positive : 1 ≤ (d.filterTile k).toInt ∧ 1 ≤ (d.windowTile k).toInt
  tiled : ∀ i ∈ [1, 2], (Conv.macroTiling k d).sizes.getD i 0 ≠ 0

/-- Whatever wraps around in the number of tiles, so many tiles, each of `b` items, are a word. -/
theorem fits_of_le_ceilDiv {a b n : Int64} (hb : 1 ≤ b.toInt) (hn : 1 ≤ n.toInt)
    (h : n.toInt ≤ (ceilDiv a b).toInt) : Fits (b.toInt * n.toInt) := by
  rw [ceilDiv] at h
  split at h
  · exact absurd (hn.trans h) (by decide)
  generalize a + b - 1 = m at h
  have hm := fits_toInt m
  rw [toInt_div_of_pos (Int64.lt_iff_toInt_lt.2 hb)] at h
  have hdiv := Int.mul_ediv_self_le (x := m.toInt) (k := b.toInt) (by omega)
  split at h
  · refine fits_of_le (mul_nonneg (by omega) (by omega)) ?_ hm
    exact (mul_le_mul_of_nonneg_left (by omega) (by omega)).trans hdiv
  · next hneg =>
    -- a negative sum has a quotient below one
    have := Int.ediv_neg_of_neg_of_pos (show m.toInt < 0 by omega) (show 0 < b.toInt by omega)
    omega

namespace Decision

variable {d : Decision} {k : Microkernel}

theorem tiles_iff (hf : 1 ≤ k.filters.toInt) (hw : 1 ≤ k.windows.toInt) (h2 : 1 ≤ d.k2.toInt)
    (h3 : 1 ≤ d.k3.toInt) :
    d.Tiles k ↔ Fits (k.filters.toInt * d.multipliers.1.toInt) ∧
    Fits (k.windows.toInt * d.multipliers.2.toInt) := by
  have hprod : (d.filterTile k = k.filters * d.multipliers.1 ∧
    d.windowTile k = k.windows * d.multipliers.2) ∧
      1 ≤ d.multipliers.1.toInt ∧ 1 ≤ d.multipliers.2.toInt := by
    rw [filterTile, windowTile, multipliers]
    cases d.strategy with
    | inputStationary => exact ⟨⟨rfl, rfl⟩, h2, h3⟩
    | _ => exact ⟨⟨rfl, rfl⟩, h3, h2⟩
  obtain ⟨⟨hfilter, hwindow⟩, hm, hm'⟩ := hprod
  refine ⟨fun h => ⟨h.filters ▸ fits_toInt _, h.windows ▸ fits_toInt _⟩, ?_⟩
  rintro ⟨hfits, hfits'⟩
  have hexact := (congrArg _ hfilter).trans (toInt_mul_of_fits hfits)
  have hexact' := (congrArg _ hwindow).trans (toInt_mul_of_fits hfits')
  have hpos := hexact ▸ one_le_mul_of_one_le_of_one_le hf hm
  have hpos' := hexact' ▸ one_le_mul_of_one_le_of_one_le hw hm'
  have hne {n : Int64} (hn : 1 ≤ n.toInt) : n ≠ 0 := ne_zero_of_pos (Int64.lt_iff_toInt_lt.2 hn)
  exact ⟨hexact, hexact', ⟨hpos, hpos'⟩, by simpa using ⟨hne hpos, hne hpos'⟩⟩

end Decision

namespace Analyzer

variable {z : Analyzer} {p : Problem} {k : Microkernel} {s : Strategy}

/-- The schedule of a strategy has exact tiles. -/
theorem evaluate_tiles (hs : s.valid) (hf : 1 ≤ k.filters.toInt) (hw : 1 ≤ k.windows.toInt) :
    (z.evaluate p k s).Tiles k := by
  rw [evaluate]
  split
  · next k2 k3 c hfit =>
    obtain ⟨-, h2, h3⟩ := fitting?_eq_some.1 hfit
    obtain ⟨hone2, hle2, -⟩ := Heuristic.search_found h2
    obtain ⟨hone3, hle3, -⟩ := Heuristic.search_found h3
    refine (Decision.tiles_iff hf hw hone2 hone3).2 ?_
    cases s with
    | weightStationary => exact ⟨fits_of_le_ceilDiv hf hone3 hle3, fits_of_le_ceilDiv hw hone2 hle2⟩
    | inputStationary => exact ⟨fits_of_le_ceilDiv hf hone2 hle2, fits_of_le_ceilDiv hw hone3 hle3⟩
    | other n => cases hs
  · refine (Decision.tiles_iff hf hw le_rfl le_rfl).2 ?_
    have hunit (n : Int64) : Fits (n.toInt * (1 : Int64).toInt) :=
      (mul_one n.toInt).symm ▸ fits_toInt n
    cases s <;> exact ⟨hunit _, hunit _⟩

theorem toInt_max (a b : Int64) : (max a b).toInt = max a.toInt b.toInt := by
  rw [show max a b = if a ≤ b then b else a from rfl, max_def]
  simp only [Int64.le_iff_toInt_le]
  split <;> rfl

/-- **The outer tiles of every schedule that is searched for are exact**, those of a forced one just
if they are words.  A multiplier that `search` gives is at most the number of tiles, and all tiles
but the last are within the side of the problem; `override` takes what it is given, but for the
lower bound one. -/
theorem outer_tiles (hp : p.withDefaults.validate = .ok ()) (ha : z.arch.validate = .ok ())
    (hfixed : ∀ k, z.fixed = some k → 0 < k.filters ∧ 0 < k.windows)
    (hwindows : Fits (p.output.height.toInt * p.output.width.toInt)) :
    (∃ c, z.candidates p = .ok c ∧ z.analyze p = .ok (c.microkernel, c.best) ∧
      c.inputStationary.Tiles c.microkernel ∧ c.weightStationary.Tiles c.microkernel ∧
      c.best.Tiles c.microkernel) ∧
    ∀ forced : Decision, forced.strategy.valid → ∃ k d, z.override p forced = .ok (k, d) ∧
      (d.Tiles k ↔ Fits (k.filters.toInt * d.multipliers.1.toInt) ∧
        Fits (k.windows.toInt * d.multipliers.2.toInt)) := by
  have hpos := Problem.positive_of_validate hp
  obtain ⟨hf, -, hw, -⟩ := microkernel_bounded (z := z) hpos.outChannels
    (toInt_windows hwindows ▸ one_le_mul_of_one_le_of_one_le hpos.outputHeight hpos.outputWidth)
      hfixed
  have hc := candidates_eq hp ha hfixed
  have hin := evaluate_tiles (z := z) (p := p.withDefaults) (s := .inputStationary) rfl hf hw
  have hwt := evaluate_tiles (z := z) (p := p.withDefaults) (s := .weightStationary) rfl hf hw
  refine ⟨⟨_, hc, ?_, hin, hwt, ?_⟩, fun forced hs => ?_⟩
  · rw [analyze, hc]
    rfl
  · rw [Candidates.best]
    split
    · exact hin
    · exact hwt
  · have hone (n : Int64) : 1 ≤ (max n 1).toInt := (toInt_max n 1).symm ▸ le_max_right _ _
    have hoverride : z.override p forced = .ok (z.microkernel p.withDefaults,
        z.decide p.withDefaults (z.microkernel p.withDefaults) forced.strategy (max forced.k2 1)
          (max forced.k3 1) (min (max forced.tileC 1) p.inChannels)) := by
      rw [override, prepare_eq hp ha hfixed]
      simp only [hs]
      rfl
    exact ⟨_, _, hoverride, Decision.tiles_iff hf hw (hone _) (hone _)⟩

/-- Uneven tiles. -/
theorem outer_tiles_uneven :
    ∃ c, tightAnalyzer.candidates unevenProblem = .ok c ∧ c.best.Tiles c.microkernel := by
  obtain ⟨⟨c, hc, -, -, -, hbest⟩, -⟩ :=
    outer_tiles (z := tightAnalyzer) (p := unevenProblem) rfl rfl
    (by simp [tightAnalyzer]) ⟨by decide, by decide⟩
  exact ⟨c, hc, hbest⟩

/-- Four filters taken `2 ^ 62` times: the product wraps around to zero. -/
theorem override_untiled : ∃ d, (⟨.standard, .half, some ⟨4, 4⟩⟩ : Analyzer).override unevenProblem
      (.ofParameters .inputStationary 4611686018427387904 1 1) = .ok (⟨4, 4⟩, d) ∧
    d.filterTile ⟨4, 4⟩ = 0 ∧ (Conv.macroTiling ⟨4, 4⟩ d).sizes.getD 1 0 = 0 :=
  ⟨_, rfl, by decide +kernel, by decide +kernel⟩

end Analyzer

end ConvNest.Schedule
