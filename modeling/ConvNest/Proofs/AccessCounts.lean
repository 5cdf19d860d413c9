/-
# Counting accesses

`Flow` holds, as integers, what the traffic of a schedule depends on, and `Flow.total` is the
traffic that the first four equations of the cost model mean.  As long as nothing wraps around
(`Countable`), the words that are computed are these integers; whole lines of reloaded outputs are
added to one level, whichever it is, and the rest of the loads to the first one (`accesses_exact`).

No access is lost or counted twice (`decide_conserves`), and no count is negative if an element is
no larger than a cache line (`decide_nonneg`).  If it is larger, more lines are reloaded than
elements, and the first level pays for the difference (`candidates_negative`).
-/
import ConvNest.Proofs.CacheFit

namespace ConvNest.Schedule

open Word

/-! ## 1. Words that are not negative -/

/-- A word has an integer that is not negative for its value. -/
def Tallies (a : Int64) (n : Int) : Prop := a.toInt = n ∧ 0 ≤ n

theorem Counts.tallies {a : Int64} {n : Int} (h : Counts a n) : Tallies a n := ⟨h.1, h.nonneg⟩

namespace Tallies

variable {a b : Int64} {m n : Int}

section

variable (ha : Tallies a m)

include ha

theorem mul (hb : Tallies b n) (h : Fits (m * n)) : Tallies (a * b) (m * n) := by
  obtain ⟨rfl, hm⟩ := ha
  obtain ⟨rfl, hn⟩ := hb
  exact ⟨toInt_mul_of_fits h, mul_nonneg hm hn⟩

theorem add (hb : Tallies b n) (h : Fits (m + n)) : Tallies (a + b) (m + n) := by
  obtain ⟨rfl, hm⟩ := ha
  obtain ⟨rfl, hn⟩ := hb
  exact ⟨toInt_add_of_fits h, add_nonneg hm hn⟩

theorem div (hb : Counts b n) : Tallies (a / b) (m / n) := by
  obtain ⟨rfl, hm⟩ := ha
  obtain ⟨rfl, hn⟩ := hb
  exact ⟨toInt_div_nonneg hm hn, Int.ediv_nonneg hm (by omega)⟩

theorem sub (hb : Tallies b n) : (a - b).toInt = m - n := by
  obtain ⟨rfl, hm⟩ := ha
  obtain ⟨rfl, hn⟩ := hb
  have hfa := fits_toInt a
  have hfb := fits_toInt b
  rw [Fits] at hfa hfb
  exact toInt_sub_of_fits ⟨by omega, by omega⟩

/-- A difference of words that are not negative does not wrap around. -/
theorem monus (hb : Tallies b n) : Tallies (monus a b) (max (m - n) 0) := by
  have hsub := ha.sub hb
  refine ⟨?_, le_max_right _ _⟩
  rw [Schedule.monus, show max (a - b) 0 = if a - b ≤ 0 then 0 else a - b from rfl]
  split
  · next h =>
    have h : (a - b).toInt ≤ 0 := Int64.le_iff_toInt_le.1 h
    rw [max_eq_right (hsub ▸ h)]
    rfl
  · next h =>
    have h : 0 < (a - b).toInt := Int64.lt_iff_toInt_lt.1 (Int64.not_le.1 h)
    rw [max_eq_left (hsub ▸ h.le), hsub]

theorem ceilDiv (hb : Counts b n) (h : Fits (m + n)) : Tallies (ceilDiv a b) (tileCount m n) := by
  obtain ⟨rfl, hm⟩ := ha
  obtain ⟨rfl, hn⟩ := hb
  exact ⟨toInt_ceilDiv hm hn h, Int.ediv_nonneg (by omega) (by omega)⟩

theorem min_one : Tallies (min a 1) (min m 1) :=
  ⟨(Microkernel.toInt_min a 1).trans (congrArg (min · 1) ha.1), le_min ha.2 Int.one_nonneg⟩

end

/-- The bytes of some tiles, taken a number of times. -/
theorem bytes {t c : Int64} {k : Int} (hm : 0 ≤ m) (ha : Fits m → Tallies a m) (ht : Counts t n)
    (hc : Counts c k) (h : Fits (m * n * k)) : Tallies (a * t * c) (m * n * k) := by
  have hmn := mul_nonneg hm ht.nonneg
  have hfits := fits_of_le hmn (le_mul_of_one_le_right hmn hc.2) h
  exact ((ha (fits_of_le hm (le_mul_of_one_le_right hm ht.2) hfits)).mul ht.tallies hfits).mul
    hc.tallies h

end Tallies

/-- The bytes that are touched between two loads of an output, as they are computed. -/
def Footprint.distance (p : Problem) (blocks : Int64) : Int64 :=
  (p.windows * (p.inChannels / blocks * p.filterArea) +
    p.outChannels * (p.inChannels / blocks * p.filterArea) + p.outChannels * p.windows) *
    p.elementSize

/-- One of four counts, that of the first level that can hold so many bytes. -/
def Arch.serving (a : Arch) (distance : Int64) (e₁ e₂ e₃ em : Int) : Int :=
  if distance < a.l1 then e₁ else if distance < a.l2 then e₂ else if distance < a.l3 then e₃ else em

/-- The count of the first level, once the lines that it serves itself are added. -/
def Arch.nearest (a : Arch) (distance : Int64) (e₁ lines : Int) : Int :=
  if distance < a.l1 then e₁ + lines else e₁

/-- Lines are added to the first level that can hold so many bytes, and the rest to the first level:
the level that serves the lines decides both sums. -/
theorem served_exact {a : Arch} {distance lines rest : Int64} (x : Accesses) {N R : Int}
    (hlines : Tallies lines N) (hrest : rest.toInt = R)
    (hserved : Fits (a.serving distance x.l1.toInt x.l2.toInt x.l3.toInt x.mem.toInt + N))
    (hnearest : Fits (a.nearest distance x.l1.toInt N + R)) :
    let y : Accesses :=
      if distance < a.l1 then { x with l1 := x.l1 + lines }
      else if distance < a.l2 then { x with l2 := x.l2 + lines }
      else if distance < a.l3 then { x with l3 := x.l3 + lines }
      else { x with mem := x.mem + lines }
    ∃ d₁ d₂ d₃ dm : Int, (0 ≤ d₁ ∧ 0 ≤ d₂ ∧ 0 ≤ d₃ ∧ 0 ≤ dm ∧ d₁ + d₂ + d₃ + dm = N) ∧
      (y.l1 + rest).toInt = x.l1.toInt + d₁ + R ∧ y.l2.toInt = x.l2.toInt + d₂ ∧
      y.l3.toInt = x.l3.toInt + d₃ ∧ y.mem.toInt = x.mem.toInt + dm := by
  obtain ⟨hlines, hN⟩ := hlines
  have hadd {n : Int64} (h : Fits (n.toInt + N)) : (n + lines).toInt = n.toInt + N := by
    rw [toInt_add_of_fits] <;> rw [hlines]
    exact h
  have hadd' {n : Int64} (h : Fits (n.toInt + R)) : (n + rest).toInt = n.toInt + R := by
    rw [toInt_add_of_fits] <;> rw [hrest]
    exact h
  have hsame (n : Int64) : n.toInt = n.toInt + 0 := (add_zero _).symm
  unfold Arch.serving at hserved
  unfold Arch.nearest at hnearest
  dsimp only
  split
  · next hd =>
    rw [if_pos hd] at hserved hnearest
    have h := hadd hserved
    have hl1 := hadd' (h ▸ hnearest)
    exact ⟨N, 0, 0, 0, by omega, by rw [hl1, h], hsame _, hsame _, hsame _⟩
  next hd =>
  rw [if_neg hd] at hserved hnearest
  have hl1 := hadd' hnearest
  rw [hsame x.l1] at hl1
  split
  · next hd =>
    rw [if_pos hd] at hserved
    exact ⟨0, N, 0, 0, by omega, hl1, hadd hserved, hsame _, hsame _⟩
  next hd =>
  rw [if_neg hd] at hserved
  split
  · next hd =>
    rw [if_pos hd] at hserved
    exact ⟨0, 0, N, 0, by omega, hl1, hsame _, hadd hserved, hsame _⟩
  · next hd =>
    rw [if_neg hd] at hserved
    exact ⟨0, 0, 0, N, by omega, hl1, hsame _, hsame _, hadd hserved⟩

/-- Whole lines of reloaded outputs are added to one of the levels, and the rest of the reloads to
the first.  Two sums are computed, and only they have to fit. -/
theorem withReloads_exact {p : Problem} {a : Arch} {blocks : Int64} {x : Accesses}
    {e₁ e₂ e₃ em b o e l : Int} (h₁ : Tallies x.l1 e₁) (h₂ : Tallies x.l2 e₂) (h₃ : Tallies x.l3 e₃)
    (hm : Tallies x.mem em) (hb : Counts blocks b) (ho : Counts (p.outChannels * p.windows) o)
    (he : Counts p.elementSize e) (hl : Counts a.cacheLine l) (hbytes : Fits ((b - 1) * o * e))
    (hserved : Fits (a.serving (Footprint.distance p blocks) e₁ e₂ e₃ em + (b - 1) * o * e / l))
    (hrest : Fits (a.nearest (Footprint.distance p blocks) e₁ ((b - 1) * o * e / l) +
      ((b - 1) * o - (b - 1) * o * e / l))) :
    ∃ d₁ d₂ d₃ dm : Int,
      (0 ≤ d₁ ∧ 0 ≤ d₂ ∧ 0 ≤ d₃ ∧ 0 ≤ dm ∧ d₁ + d₂ + d₃ + dm = (b - 1) * o * e / l) ∧
      (Footprint.withReloads p a blocks x).l1.toInt =
        e₁ + d₁ + ((b - 1) * o - (b - 1) * o * e / l) ∧
      (Footprint.withReloads p a blocks x).l2.toInt = e₂ + d₂ ∧
      (Footprint.withReloads p a blocks x).l3.toInt = e₃ + d₃ ∧
      (Footprint.withReloads p a blocks x).mem.toInt = em + dm := by
  obtain ⟨rfl, h₁⟩ := h₁
  obtain ⟨rfl, h₂⟩ := h₂
  obtain ⟨rfl, h₃⟩ := h₃
  obtain ⟨rfl, hm⟩ := hm
  have hunit : Tallies 1 1 := ⟨rfl, Int.one_nonneg⟩
  have hone := hb.2
  unfold Footprint.withReloads
  split
  · next hle =>
    have hle : blocks.toInt ≤ 1 := Int64.le_iff_toInt_le.1 hle
    obtain rfl : b = 1 := by rw [hb.1] at hle; omega
    exact ⟨0, 0, 0, 0, by simp⟩
  have hless : Tallies (blocks - 1) (b - 1) := ⟨hb.tallies.sub hunit, by omega⟩
  have hL := mul_nonneg hless.2 ho.nonneg
  have hloads := hless.mul ho.tallies (fits_of_le hL (le_mul_of_one_le_right hL he.2) hbytes)
  have hlines := (hloads.mul he.tallies hbytes).div hl
  exact served_exact x hlines (hloads.sub hlines) hserved hrest

/-! ## 2. Traffic -/

/-- What the traffic of a schedule depends on, as integers. -/
structure Flow where
  blocks : Int
  line : Int
  /-- The number and the bytes of the streamed tiles. -/
  streamedTiles : Int
  streamedSize : Int
  /-- The number and the bytes of the staying tiles. -/
  stayingTiles : Int
  stayingSize : Int
  /-- How often streamed and staying tiles are loaded after the first time. -/
  streamedAgain : Int
  stayingAgain : Int
  /-- The outputs that are loaded again for each block after the first, and their whole lines. -/
  loads : Int
  reloaded : Int

namespace Flow

/-- The flow of a schedule with the given parameters. -/
def ofSchedule (p : Problem) (a : Arch) (k : Microkernel) (s : Strategy) (k2 k3 c : Int64) : Flow :=
  let v := Volume.ofMicrokernel p k c.toInt
  let loads := (p.inChannels.toInt / c.toInt - 1) *
    (p.outChannels.toInt * (p.output.height.toInt * p.output.width.toInt))
  { blocks := p.inChannels.toInt / c.toInt
    line := a.cacheLine.toInt
    streamedTiles := (p.tileCounts k s).1
    streamedSize := if s = .weightStationary then v.input else v.filter
    stayingTiles := (p.tileCounts k s).2
    stayingSize := if s = .weightStationary then v.filter else v.input
    streamedAgain := max ((p.tileCounts k s).1 / k2.toInt - 1) 0
    stayingAgain := max ((p.tileCounts k s).2 / k3.toInt - 1) 0
    loads := loads
    reloaded := loads * p.elementSize.toInt / a.cacheLine.toInt }

/-- All tiles, for each block of channels. -/
def first (q : Flow) : Int :=
  q.blocks * (q.streamedTiles * q.streamedSize + q.stayingTiles * q.stayingSize)

/-- The streamed tiles, if they do not all fit in the second level, for each staying tile that is
loaded again. -/
def again (q : Flow) : Int :=
  min q.streamedAgain 1 * q.stayingAgain * q.streamedTiles * q.streamedSize

/-- The staying tiles, for each streamed tile that is loaded again. -/
def l3 (q : Flow) : Int := q.streamedAgain * q.stayingTiles * q.stayingSize

/-- The streamed tiles, for each staying tile but the first. -/
def l2 (q : Flow) : Int := max (q.stayingTiles - 1) 0 * q.streamedTiles * q.streamedSize

/-- The lines of some bytes. -/
def lines (q : Flow) (bytes : Int) : Int := tileCount bytes q.line

/-- The accesses outside of the first level. -/
def total (q : Flow) : Int :=
  q.blocks * q.lines q.l3 + q.blocks * q.lines q.l2 + (q.lines q.first + q.blocks * q.lines q.again)

/-- All tiles of one block, and so each tile, are part of the first accesses. -/
theorem le_first {q : Flow} (hb : 1 ≤ q.blocks) (ht : 1 ≤ q.streamedTiles) (hs : 1 ≤ q.streamedSize)
    (ht' : 1 ≤ q.stayingTiles) (hs' : 1 ≤ q.stayingSize) :
    q.streamedTiles * q.streamedSize + q.stayingTiles * q.stayingSize ≤ q.first ∧
    q.streamedSize ≤ q.first ∧ q.stayingSize ≤ q.first := by
  have hle := le_mul_of_one_le_left (Int.le_of_lt hs) ht
  have hle' := le_mul_of_one_le_left (Int.le_of_lt hs') ht'
  have hall : _ ≤ q.first := le_mul_of_one_le_left (by omega) hb
  exact ⟨hall, by omega, by omega⟩

end Flow

/-- The number of multiplications and additions, as an integer. -/
def Problem.work (p : Problem) : Int :=
  p.outChannels.toInt * (p.output.height.toInt * p.output.width.toInt) *
    (p.filter.height.toInt * p.filter.width.toInt) * p.inChannels.toInt

namespace Flow

/-- The accesses of the first level, before outputs are reloaded. -/
def hits (q : Flow) (p : Problem) : Int := max (2 * p.work - q.total) 0

/-- The accesses of the level that serves the reloads. -/
def serving (q : Flow) (p : Problem) (a : Arch) (c : Int64) : Int :=
  a.serving (Footprint.distance p (p.inChannels / c)) (q.hits p) (q.blocks * q.lines q.l2)
    (q.blocks * q.lines q.l3) (q.lines q.first + q.blocks * q.lines q.again)

/-- The accesses of the first level, once the lines that it serves itself are added. -/
def nearest (q : Flow) (p : Problem) (a : Arch) (c : Int64) : Int :=
  a.nearest (Footprint.distance p (p.inChannels / c)) (q.hits p) q.reloaded

end Flow

/-- A schedule of a valid problem, whose accesses are counted without wrapping around: each field
about `Fits` bounds a value that is computed on the way. -/
structure Countable (p : Problem) (a : Arch) (k : Microkernel) (s : Strategy) (k2 k3 c : Int64) :
    Prop where
  problem : p.validate = .ok ()
  arch : a.validate = .ok ()
  microkernel : 1 ≤ k.filters.toInt ∧ 1 ≤ k.windows.toInt
  multipliers : 1 ≤ k2.toInt ∧ 1 ≤ k3.toInt
  channels : 1 ≤ c.toInt ∧ c.toInt ≤ p.inChannels.toInt
  inputTiles : Fits (p.output.height.toInt * p.output.width.toInt + k.windows.toInt)
  filterTiles : Fits (p.outChannels.toInt + k.filters.toInt)
  first : Fits ((Flow.ofSchedule p a k s k2 k3 c).first + a.cacheLine.toInt)
  again : Fits ((Flow.ofSchedule p a k s k2 k3 c).again + a.cacheLine.toInt)
  l3 : Fits ((Flow.ofSchedule p a k s k2 k3 c).l3 + a.cacheLine.toInt)
  l2 : Fits ((Flow.ofSchedule p a k s k2 k3 c).l2 + a.cacheLine.toInt)
  bytes : Fits ((Flow.ofSchedule p a k s k2 k3 c).loads * p.elementSize.toInt)
  total : Fits (Flow.ofSchedule p a k s k2 k3 c).total
  work : Fits (2 * p.work)
  /-- The level that serves the reloads holds its own accesses and the reloaded lines. -/
  served : Fits ((Flow.ofSchedule p a k s k2 k3 c).serving p a c +
    (Flow.ofSchedule p a k s k2 k3 c).reloaded)
  /-- The first level holds what it has then and the rest of the reloads. -/
  rest : Fits ((Flow.ofSchedule p a k s k2 k3 c).nearest p a c +
    ((Flow.ofSchedule p a k s k2 k3 c).loads - (Flow.ofSchedule p a k s k2 k3 c).reloaded))

namespace Countable

variable {p : Problem} {a : Arch} {k : Microkernel} {s : Strategy} {k2 k3 c : Int64}
  (h : Countable p a k s k2 k3 c) {n : Int}

include h

theorem line : Counts a.cacheLine a.cacheLine.toInt :=
  ⟨rfl, Arch.positive_of_validate h.arch _ (by simp [Arch.fields])⟩

theorem blocks : Counts (p.inChannels / c) (p.inChannels.toInt / c.toInt) := by
  have hc := h.channels
  refine ⟨toInt_div_nonneg (by omega) hc.1, ?_⟩
  exact (Int.le_ediv_iff_mul_le (by omega)).2 (by omega)

theorem positive : p.Positive := Problem.positive_of_validate h.problem

theorem windows : Counts p.windows (p.output.height.toInt * p.output.width.toInt) := by
  have hone := one_le_mul_of_one_le_of_one_le h.positive.outputHeight h.positive.outputWidth
  have hk := h.microkernel
  exact ⟨toInt_windows (fits_of_le (by omega) (by omega) h.inputTiles), hone⟩

theorem fits_of_le_first (hn : 0 ≤ n) (hle : n ≤ (Flow.ofSchedule p a k s k2 k3 c).first) :
    Fits n :=
  fits_of_le hn (by have := h.line.2; omega) h.first

/-- The tiles have the numbers and the bytes of the flow. -/
theorem roles :
    let q := Flow.ofSchedule p a k s k2 k3 c
    let r := ((Footprint.ofMicrokernel p k).withChannels c).roles s
    Counts r.streamedTiles q.streamedTiles ∧ Counts r.streamedSize q.streamedSize ∧
    Counts r.stayingTiles q.stayingTiles ∧ Counts r.stayingSize q.stayingSize := by
  obtain ⟨hkf, hkw⟩ := h.microkernel
  have hp := h.positive
  have hc := h.channels.1
  obtain ⟨hin, hfilter⟩ :=
    counts_tiles hp hkf hkw (h.windows.1 ▸ fits_toInt _) h.inputTiles h.filterTiles
  have hsize {n : Int64} (hn : 1 ≤ n.toInt)
    (hle : n.toInt * (p.filter.height.toInt * p.filter.width.toInt) *
      p.elementSize.toInt * c.toInt ≤ (Flow.ofSchedule p a k s k2 k3 c).first) :=
    counts_tile hn hp.filterHeight hp.filterWidth hp.elementSize hc
      (h.fits_of_le_first (Int.le_of_lt (hp.tile hn hc)) hle)
  have hi := hp.tile hkw hc
  have hf := hp.tile hkf hc
  cases s with
  | weightStationary =>
    obtain ⟨-, hle, hle'⟩ := Flow.le_first (q := .ofSchedule p a k .weightStationary k2 k3 c)
      h.blocks.2 hin.2 hi hfilter.2 hf
    exact ⟨hin, hsize hkw hle, hfilter, hsize hkf hle'⟩
  | inputStationary =>
    obtain ⟨-, hle, hle'⟩ :=
      Flow.le_first (q := .ofSchedule p a k .inputStationary k2 k3 c)
        h.blocks.2 hfilter.2 hf hin.2 hi
    exact ⟨hfilter, hsize hkf hle, hin, hsize hkw hle'⟩
  | other n =>
    obtain ⟨-, hle, hle'⟩ :=
      Flow.le_first (q := .ofSchedule p a k (.other n) k2 k3 c) h.blocks.2 hfilter.2 hf hin.2 hi
    exact ⟨hfilter, hsize hkf hle, hin, hsize hkw hle'⟩

theorem lines {b : Int64} (hn : 0 ≤ n) (hb : Fits n → Tallies b n)
    (hfits : Fits (n + a.cacheLine.toInt)) :
    Tallies (ceilDiv b a.cacheLine) ((Flow.ofSchedule p a k s k2 k3 c).lines n) :=
  (hb (fits_of_le hn (by have := h.line.2; omega) hfits)).ceilDiv h.line hfits

theorem loads : 0 ≤ (Flow.ofSchedule p a k s k2 k3 c).loads :=
  mul_nonneg (by have := h.blocks.2; omega)
    (mul_nonneg (Int.le_of_lt h.positive.outChannels) h.windows.nonneg)

theorem fits_of_le_total (hn : 0 ≤ n) (hle : n ≤ (Flow.ofSchedule p a k s k2 k3 c).total) :
    Fits n :=
  fits_of_le hn hle h.total

/-- The accesses outside of the first level are those of the flow. -/
theorem traffic :
    let q := Flow.ofSchedule p a k s k2 k3 c
    let x := ((Footprint.ofMicrokernel p k).withChannels c).traffic a s k2 k3 (p.inChannels / c)
    Tallies x.l2 (q.blocks * q.lines q.l2) ∧ Tallies x.l3 (q.blocks * q.lines q.l3) ∧
    Tallies x.mem (q.lines q.first + q.blocks * q.lines q.again) := by
  intro q x
  obtain ⟨ht, hs, ht', hs'⟩ := h.roles
  obtain ⟨hall, -, -⟩ := Flow.le_first (q := q) h.blocks.2 ht.2 hs.2 ht'.2 hs'.2
  have hone : Tallies 1 1 := ⟨rfl, Int.one_nonneg⟩
  have hstreamed : Tallies _ q.streamedAgain := (ht.tallies.div ⟨rfl, h.multipliers.1⟩).monus hone
  have hstaying : Tallies _ q.stayingAgain := (ht'.tallies.div ⟨rfl, h.multipliers.2⟩).monus hone
  have hbytes : 0 ≤ q.streamedTiles * q.streamedSize := mul_nonneg ht.nonneg hs.nonneg
  have hbytes' : 0 ≤ q.stayingTiles * q.stayingSize := mul_nonneg ht'.nonneg hs'.nonneg
  have hfits : Fits (q.streamedTiles * q.streamedSize) :=
    h.fits_of_le_first hbytes ((le_add_of_nonneg_right hbytes').trans hall)
  have hfits' : Fits (q.stayingTiles * q.stayingSize) :=
    h.fits_of_le_first hbytes' ((le_add_of_nonneg_left hbytes).trans hall)
  have hpair : Tallies _ (q.streamedTiles * q.streamedSize + q.stayingTiles * q.stayingSize) :=
    ((ht.mul hs hfits).add (ht'.mul hs' hfits')
      (h.fits_of_le_first (add_nonneg hbytes hbytes') hall)).tallies
  have hfirst : Tallies _ (q.lines q.first) :=
    h.lines (mul_nonneg h.blocks.nonneg hpair.2) (h.blocks.tallies.mul hpair) h.first
  have hmin : 0 ≤ min q.streamedAgain 1 * q.stayingAgain :=
    mul_nonneg hstreamed.min_one.2 hstaying.2
  have hagain : Tallies _ (q.lines q.again) :=
    h.lines (mul_nonneg (mul_nonneg hmin ht.nonneg) hs.nonneg)
      (Tallies.bytes hmin (hstreamed.min_one.mul hstaying) ht hs) h.again
  have hl3 : Tallies _ (q.lines q.l3) :=
    h.lines (mul_nonneg (mul_nonneg hstreamed.2 ht'.nonneg) hs'.nonneg)
      (Tallies.bytes hstreamed.2 (fun _ => hstreamed) ht' hs') h.l3
  have hless : Tallies _ (max (q.stayingTiles - 1) 0) := ht'.tallies.monus hone
  have hl2 : Tallies _ (q.lines q.l2) :=
    h.lines (mul_nonneg (mul_nonneg hless.2 ht.nonneg) hs.nonneg)
      (Tallies.bytes hless.2 (fun _ => hless) ht hs) h.l2
  have hblocks : Tallies _ q.blocks := h.blocks.tallies
  have h₂ : 0 ≤ q.blocks * q.lines q.l2 := mul_nonneg hblocks.2 hl2.2
  have h₃ : 0 ≤ q.blocks * q.lines q.l3 := mul_nonneg hblocks.2 hl3.2
  have h₄ : 0 ≤ q.blocks * q.lines q.again := mul_nonneg hblocks.2 hagain.2
  have hmem : 0 ≤ q.lines q.first + q.blocks * q.lines q.again := add_nonneg hfirst.2 h₄
  refine ⟨hblocks.mul hl2 (h.fits_of_le_total h₂ ?_),
    hblocks.mul hl3 (h.fits_of_le_total h₃ ?_), ?_⟩
  · exact (le_add_of_nonneg_left h₃).trans (le_add_of_nonneg_right hmem)
  · exact (le_add_of_nonneg_right h₂).trans (le_add_of_nonneg_right hmem)
  have hle : _ ≤ q.total := le_add_of_nonneg_left (add_nonneg h₃ h₂)
  have hsum (f : Footprint) : f.inputTiles * f.input + f.filterTiles * f.filter =
      (f.roles s).streamedTiles * (f.roles s).streamedSize + (f.roles s).stayingTiles *
        (f.roles s).stayingSize := by
    cases s with
    | weightStationary => rfl
    | _ => exact Int64.add_comm ..
  show Tallies (ceilDiv (_ * (_ * _ + _ * _)) _ + _) _
  rw [hsum]
  have hagainAll : Tallies _ (q.blocks * q.lines q.again) :=
    hblocks.mul hagain (h.fits_of_le_total h₄ ((le_add_of_nonneg_left hfirst.2).trans hle))
  exact hfirst.add hagainAll (h.fits_of_le_total hmem hle)

/-- The steps and the outputs are counted exactly. -/
theorem steps : Counts (Footprint.steps p) p.work ∧
    Counts (p.outChannels * p.windows)
      (p.outChannels.toInt * (p.output.height.toInt * p.output.width.toInt)) := by
  have hp := h.positive
  have harea := one_le_mul_of_one_le_of_one_le hp.filterHeight hp.filterWidth
  have hout := one_le_mul_of_one_le_of_one_le hp.outChannels h.windows.2
  have hplane := one_le_mul_of_one_le_of_one_le hout harea
  have hone : 1 ≤ p.work := one_le_mul_of_one_le_of_one_le hplane hp.inChannels
  have hwork : Fits p.work := fits_of_le (by omega) (by omega) h.work
  have hfits := fits_left hplane hp.inChannels hwork
  have houtputs := Counts.mul ⟨rfl, hp.outChannels⟩ h.windows (fits_left hout harea hfits)
  have hfilter :=
    Counts.mul ⟨rfl, hp.filterHeight⟩ ⟨rfl, hp.filterWidth⟩ (fits_right hout harea hfits)
  exact ⟨(houtputs.mul hfilter hfits).mul ⟨rfl, hp.inChannels⟩ hwork, houtputs⟩

/-- Two reads for each step, but for those that other levels serve. -/
theorem hits :
    let x := ((Footprint.ofMicrokernel p k).withChannels c).traffic a s k2 k3 (p.inChannels / c)
    Tallies (Footprint.withHits p x).l1 ((Flow.ofSchedule p a k s k2 k3 c).hits p) := by
  obtain ⟨h₂, h₃, hm⟩ := h.traffic
  have hsum := add_nonneg h₃.2 h₂.2
  have htwice : Tallies _ (2 * p.work) :=
    Tallies.mul (a := 2) ⟨rfl, by decide⟩ h.steps.1.tallies h.work
  exact htwice.monus ((h₃.add h₂ (h.fits_of_le_total hsum (le_add_of_nonneg_right hm.2))).add hm
    (h.fits_of_le_total (add_nonneg hsum hm.2) le_rfl))

/-- **What is counted, exactly.**  Whole lines of reloaded outputs are added to one of the levels,
and the rest of the reloads to the first. -/
theorem accesses :
    let q := Flow.ofSchedule p a k s k2 k3 c
    let x := ((Footprint.ofMicrokernel p k).withChannels c).accesses p a s k2 k3 c
    ∃ d₁ d₂ d₃ dm : Int, (0 ≤ d₁ ∧ 0 ≤ d₂ ∧ 0 ≤ d₃ ∧ 0 ≤ dm ∧ d₁ + d₂ + d₃ + dm = q.reloaded) ∧
      x.l1.toInt = q.hits p + d₁ + (q.loads - q.reloaded) ∧
      x.l2.toInt = q.blocks * q.lines q.l2 + d₂ ∧ x.l3.toInt = q.blocks * q.lines q.l3 + d₃ ∧
      x.mem.toInt = q.lines q.first + q.blocks * q.lines q.again + dm := by
  obtain ⟨h₂, h₃, hm⟩ := h.traffic
  exact withReloads_exact h.hits h₂ h₃ hm h.blocks h.steps.2 ⟨rfl, h.positive.elementSize⟩ h.line
    h.bytes h.served h.rest

end Countable

/-! ## 3. The counts of a schedule -/

namespace Analyzer

variable {z : Analyzer} {p : Problem} {k : Microkernel} {s : Strategy} {k2 k3 c : Int64}

/-- Accesses that are not negative take as many cycles as they mean. -/
theorem tallies_latency {x : Accesses} {a : Arch} (ha : a.validate = .ok ()) (h₁ : 0 ≤ x.l1.toInt)
    (h₂ : 0 ≤ x.l2.toInt) (h₃ : 0 ≤ x.l3.toInt) (hm : 0 ≤ x.mem.toInt)
    (h : Fits (x.l1.toInt * a.l1Latency.toInt + x.l2.toInt * a.l2Latency.toInt +
      x.l3.toInt * a.l3Latency.toInt + x.mem.toInt * a.memLatency.toInt)) :
    Tallies (x.latency a) (x.l1.toInt * a.l1Latency.toInt + x.l2.toInt * a.l2Latency.toInt +
      x.l3.toInt * a.l3Latency.toInt + x.mem.toInt * a.memLatency.toInt) := by
  have hlat (n : Int64) (hn : n ∈ a.fields) : 0 ≤ n.toInt :=
    Int.le_of_lt (Arch.positive_of_validate ha n hn)
  simp only [Arch.fields, List.forall_mem_cons] at hlat
  obtain ⟨-, -, -, hl₁, hl₂, hl₃, hlm, -⟩ := hlat
  have hc₁ := mul_nonneg h₁ hl₁
  have hc₂ := mul_nonneg h₂ hl₂
  have hc₃ := mul_nonneg h₃ hl₃
  have hcm := mul_nonneg hm hlm
  have hfits {n : Int} (hn : 0 ≤ n) (hle : n ≤ _) : Fits n := fits_of_le hn hle h
  have ht {n l : Int64} (hn : 0 ≤ n.toInt) (hl : 0 ≤ l.toInt) : Fits (n.toInt * l.toInt) →
      Tallies (n * l) _ :=
    Tallies.mul ⟨rfl, hn⟩ ⟨rfl, hl⟩
  exact ((((ht h₁ hl₁ (hfits hc₁ (by omega))).add (ht h₂ hl₂ (hfits hc₂ (by omega)))
    (hfits (by omega) (by omega))).add (ht h₃ hl₃ (hfits hc₃ (by omega)))
      (hfits (by omega) (by omega))).add
    (ht hm hlm (hfits hcm (by omega))) h)

/-- **The counts of the outer levels are not negative.**  That of the first level is not, either, if
an element is no larger than a cache line, and then the cost is not.  `withHits` cuts off at zero.
`withReloads` gives the first level the reloaded elements less their lines; of those there are no
more than elements then, but more if an element takes several lines (`candidates_negative`). -/
theorem decide_nonneg (h : Countable p z.arch k s k2 k3 c) :
    let x := (z.decide p k s k2 k3 c).accesses
    0 ≤ x.l2.toInt ∧ 0 ≤ x.l3.toInt ∧ 0 ≤ x.mem.toInt ∧
      (p.elementSize ≤ z.arch.cacheLine → 0 ≤ x.l1.toInt ∧
      (Fits (x.l1.toInt * z.arch.l1Latency.toInt + x.l2.toInt * z.arch.l2Latency.toInt +
        x.l3.toInt * z.arch.l3Latency.toInt + x.mem.toInt * z.arch.memLatency.toInt) →
        0 ≤ (z.decide p k s k2 k3 c).cost.toInt)) := by
  obtain ⟨h₂, h₃, hm⟩ := h.traffic
  obtain ⟨d₁, d₂, d₃, dm, ⟨hd₁, hd₂, hd₃, hdm, -⟩, hx₁, hx₂, hx₃, hxm⟩ := h.accesses
  have hpos₂ := hx₂ ▸ add_nonneg h₂.2 hd₂
  have hpos₃ := hx₃ ▸ add_nonneg h₃.2 hd₃
  have hposm := hxm ▸ add_nonneg hm.2 hdm
  refine ⟨hpos₂, hpos₃, hposm, fun hline => ?_⟩
  have hlines : (Flow.ofSchedule p z.arch k s k2 k3 c).reloaded ≤
      (Flow.ofSchedule p z.arch k s k2 k3 c).loads :=
    Int.ediv_le_of_le_mul h.line.2
      (mul_le_mul_of_nonneg_left (Int64.le_iff_toInt_le.1 hline) h.loads)
  have hpos₁ := hx₁ ▸ add_nonneg (add_nonneg (le_max_right _ _) hd₁) (sub_nonneg.2 hlines)
  refine ⟨hpos₁, fun hcost => ?_⟩
  have htallies := tallies_latency h.arch hpos₁ hpos₂ hpos₃ hposm hcost
  exact htallies.1 ▸ htallies.2

theorem countable_uneven :
    Countable unevenProblem.withDefaults tightAnalyzer.arch ⟨4, 4⟩ .weightStationary 2 1 1 :=
  ⟨rfl, rfl, by decide, by decide, by decide, by decide, by decide, by decide, by decide, by decide,
    by decide, by decide, by decide, by decide, by decide, by decide⟩

theorem decide_nonneg_uneven :
    let d := tightAnalyzer.decide unevenProblem.withDefaults ⟨4, 4⟩ .weightStationary 2 1 1
    0 ≤ d.accesses.l1.toInt ∧ 0 ≤ d.cost.toInt := by
  obtain ⟨-, -, -, hfirst⟩ := decide_nonneg (z := tightAnalyzer) countable_uneven
  exact ⟨(hfirst (by decide)).1, (hfirst (by decide)).2 (by decide +kernel)⟩

/-- **No access is lost or counted twice**: two for each step, or all the traffic if that is more,
and one for each output of each block of channels after the first, whichever level serves it.
`withHits` gives the first level what the steps load beyond the traffic, and `withReloads` adds the
lines of the reloaded outputs to one level and the rest of their elements to the first; the sums are
those that the two compute, and none of them wraps around (`Countable`). -/
theorem decide_conserves (h : Countable p z.arch k s k2 k3 c) :
    let x := (z.decide p k s k2 k3 c).accesses
    x.l1.toInt + x.l2.toInt + x.l3.toInt + x.mem.toInt =
      max (2 * p.work) (Flow.ofSchedule p z.arch k s k2 k3 c).total +
        (p.inChannels.toInt / c.toInt - 1) *
          (p.outChannels.toInt * (p.output.height.toInt * p.output.width.toInt)) := by
  obtain ⟨d₁, d₂, d₃, dm, ⟨-, -, -, -, hlines⟩, hx₁, hx₂, hx₃, hxm⟩ := h.accesses
  refine (congrArg₂ _ (congrArg₂ _ (congrArg₂ _ hx₁ hx₂) hx₃) hxm).trans ?_
  generalize hq : Flow.ofSchedule p z.arch k s k2 k3 c = q at *
  have hloads : (p.inChannels.toInt / c.toInt - 1) *
      (p.outChannels.toInt * (p.output.height.toInt * p.output.width.toInt)) = q.loads := hq ▸ rfl
  rw [hloads, Flow.hits, Flow.total]
  omega

theorem decide_conserves_uneven :
    let x := (tightAnalyzer.decide unevenProblem.withDefaults ⟨4, 4⟩
      .weightStationary 2 1 1).accesses
    x.l1.toInt + x.l2.toInt + x.l3.toInt + x.mem.toInt = 43428 :=
  decide_conserves (z := tightAnalyzer) countable_uneven

/-- Lines of one byte and elements of eight: eight lines are reloaded for one element. -/
theorem candidates_negative :
    Countable ⟨1, 2, 1, ⟨1, 1⟩, ⟨1, 1⟩, ⟨1, 1⟩, 4, 8⟩ ⟨24, 24, 24, 100, 1, 1, 1, 1, 8⟩ ⟨1, 1⟩
      .weightStationary 1 1 1 ∧
    (candidates ⟨⟨24, 24, 24, 100, 1, 1, 1, 1, 8⟩, .half, none⟩ ⟨1, 2, 1, ⟨1, 1⟩, ⟨1, 1⟩, ⟨1, 1⟩,
      4, 8⟩).map (·.weightStationary) = .ok ⟨.weightStationary, 1, 1, 1, 0, 0, 0, ⟨-7, 0, 0, 40⟩,
        -660, false⟩ :=
  ⟨⟨rfl, rfl, by decide, by decide, by decide, by decide, by decide, by decide, by decide,
    by decide, by decide, by decide, by decide, by decide, by decide, by decide⟩, by decide +kernel⟩

end Analyzer

end ConvNest.Schedule
