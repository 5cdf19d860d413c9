/-
# The tensors of a convolution

A convolution accumulates each output element over a window of channels, filter rows and filter
columns.  On proper tensors of the right dimensions (`ConvShapes`) the elements of every window are
in the input and in the filter (`ConvShapes.factors`), and the checks pass: what is left is a walk
over the output elements (`ConvShapes.checks`).
-/
import ConvNest.Proofs.ProperTensor
import ConvNest.Schedule.Problem

namespace ConvNest

open Schedule List

namespace Schedule.Problem

/-- The box of the output elements. -/
def outBox (p : Problem) : List Int64 := [p.batch, p.outChannels, p.output.height, p.output.width]

/-- The box of the window of an output element: channel, filter row and filter column. -/
def windowBox (p : Problem) : List Int64 := [p.inChannels, p.filter.height, p.filter.width]

/-- The filter does not leave the input, at any output row or column. -/
structure Reaches (p : Problem) (height width : Int64) : Prop where
  strides : 0 < p.strides.height ∧ 0 < p.strides.width
  rows : (p.output.height.toInt - 1) * p.strides.height.toInt + p.filter.height.toInt ≤ height.toInt
  columns : (p.output.width.toInt - 1) * p.strides.width.toInt + p.filter.width.toInt ≤ width.toInt

end Schedule.Problem

/-! ## 1. Walks that do not fail -/

section

variable {α β ε : Type} {I : β → Prop} {f : β → α → Except ε β} {xs : List α} {b : β}

/-- A walk whose steps keep an invariant and do not fail under it does not fail. -/
theorem foldlM_ok (step : ∀ b, ∀ x ∈ xs, I b → ∃ c, f b x = .ok c ∧ I c) (hb : I b) :
    ∃ c, xs.foldlM f b = .ok c ∧ I c := by
  induction xs generalizing b with
  | nil => exact ⟨b, rfl, hb⟩
  | cons x xs ih =>
    obtain ⟨c, hc, hI⟩ := step b x mem_cons_self hb
    obtain ⟨d, hd, hI'⟩ := ih (fun b y hy => step b y (mem_cons_of_mem _ hy)) hI
    exact ⟨d, by rw [foldlM_cons, hc]; exact hd, hI'⟩

end

namespace Tensor

/-- What a convolution is given: proper tensors of the dimensions of the problem. -/
structure ConvShapes (p : Problem) (input filter output : Tensor) : Prop where
  proper : input.Proper ∧ filter.Proper ∧ output.Proper
  inputDims : ∃ height width, input.dims = [p.batch, p.inChannels, height, width] ∧
    p.Reaches height width
  filterDims : filter.dims = [p.outChannels, p.inChannels, p.filter.height, p.filter.width]
  outputDims : output.dims = p.outBox

variable {p : Problem} {input filter output : Tensor} {out q : List Int64}
  {b o y x c s extent rows size : Int64}

/-! ## 2. One step -/

theorem inside_four (h : Inside [b, o, y, x] out) :
    ∃ i j k l, out = [i, j, k, l] := by
  have hlen := h.length_eq
  match out, hlen with
  | [i, j, k, l], _ => exact ⟨i, j, k, l, rfl⟩

theorem inside_three (h : Inside [c, y, x] q) : ∃ i j k, q = [i, j, k] := by
  have hlen := h.length_eq
  match q, hlen with
  | [i, j, k], _ => exact ⟨i, j, k, rfl⟩

/-- The input row of a filter row is in the input. -/
theorem reach {k : Int64} (hs : 0 < s) (hy : 0 ≤ y.toInt ∧ y.toInt < rows.toInt)
    (hk : 0 ≤ k.toInt ∧ k.toInt < extent.toInt)
    (hfit : (rows.toInt - 1) * s.toInt + extent.toInt ≤ size.toInt) :
    0 ≤ (y * s + k).toInt ∧ (y * s + k).toInt < size.toInt := by
  have hpos := Word.toInt_pos hs
  have hsize := size.toInt_lt
  have hmul : y.toInt * s.toInt ≤ (rows.toInt - 1) * s.toInt :=
    mul_le_mul_of_nonneg_right (by omega) (by omega)
  have hnonneg : 0 ≤ y.toInt * s.toInt := mul_nonneg hy.1 (by omega)
  have hprod : (y * s).toInt = y.toInt * s.toInt := Word.toInt_mul_of_fits ⟨by omega, by omega⟩
  rw [Word.toInt_add_of_fits ⟨by omega, by omega⟩, hprod]
  omega

/-- The elements that a step multiplies are in the input and in the filter. -/
theorem ConvShapes.factors (h : ConvShapes p input filter output) {ky kx : Int64}
    (hout : Inside p.outBox [b, o, y, x]) (hq : Inside p.windowBox [c, ky, kx]) :
    Inside input.dims [b, c, y * p.strides.height + ky, x * p.strides.width + kx] ∧
      Inside filter.dims [o, c, ky, kx] := by
  obtain ⟨height, width, hdims, hreach⟩ := h.inputDims
  rw [hdims, h.filterDims]
  simp only [Problem.outBox, Problem.windowBox, forall₂_cons, List.Forall₂.nil,
    and_true] at hout hq ⊢
  exact ⟨⟨hout.1, hq.1, reach hreach.strides.1 hout.2.2.1 hq.2.1 hreach.rows,
    reach hreach.strides.2 hout.2.2.2 hq.2.2 hreach.columns⟩, hout.2.1, hq⟩

/-! ## 3. All elements -/

/-- The input is as large as a convolution asks for. -/
theorem not_lt_need (hs : 0 < s) (hrows : 0 < rows) (hextent : 0 < extent)
    (hfit : (rows.toInt - 1) * s.toInt + extent.toInt ≤ size.toInt) :
    ¬ size < (rows - 1) * s + (extent - 1) * 1 + 1 := by
  have hpos := Word.toInt_pos hs
  have hrows := Word.toInt_pos hrows
  have hextent := Word.toInt_pos hextent
  have hsize := size.toInt_lt
  have hone : (1 : Int64).toInt = 1 := rfl
  have hrow : (rows - 1).toInt = rows.toInt - 1 := by
    have := rows.toInt_lt
    rw [Word.toInt_sub_of_fits ⟨by omega, by omega⟩, hone]
  have hext : (extent - 1).toInt = extent.toInt - 1 := by
    have := extent.toInt_lt
    rw [Word.toInt_sub_of_fits ⟨by omega, by omega⟩, hone]
  have hnonneg : 0 ≤ (rows.toInt - 1) * s.toInt := mul_nonneg (by omega) (by omega)
  have hmul : ((rows - 1) * s).toInt = (rows.toInt - 1) * s.toInt := by
    rw [Word.toInt_mul_of_fits ⟨by rw [hrow]; omega, by rw [hrow]; omega⟩, hrow]
  have hsum : ((rows - 1) * s + (extent - 1)).toInt =
      (rows.toInt - 1) * s.toInt + (extent.toInt - 1) := by
    rw [Word.toInt_add_of_fits ⟨by omega, by omega⟩, hmul, hext]
  rw [Int64.mul_one, Int64.lt_iff_toInt_lt, Word.toInt_add_of_fits ⟨by omega, by omega⟩, hsum, hone]
  omega

/-- A row of output windows stays in the input. -/
theorem reaches_of_rows {stride : Int64} (hsize : 0 < extent) (hs : 0 < stride)
    (hle : ¬ size < extent) (hrows : (size - extent) / stride + 1 = rows) :
    (rows.toInt - 1) * stride.toInt + extent.toInt ≤ size.toInt := by
  have hextent := Int64.lt_iff_toInt_lt.1 hsize
  have hstride := Int64.lt_iff_toInt_lt.1 hs
  rw [Int64.lt_iff_toInt_lt] at hle
  have hzero : (0 : Int64).toInt = 0 := rfl
  have hone : (1 : Int64).toInt = 1 := rfl
  have hmax := size.toInt_lt
  have hsub : (size - extent).toInt = size.toInt - extent.toInt :=
    Word.toInt_sub_of_fits ⟨by omega, by omega⟩
  have hdiv : ((size - extent) / stride).toInt = (size.toInt - extent.toInt) / stride.toInt := by
    rw [Word.toInt_div_of_pos hs, hsub, if_pos (.inl (by omega)), add_zero]
  have hbounds := (Word.ediv_bounds (n := size.toInt - extent.toInt) hstride).1 (by omega)
  have hrows' : rows.toInt = (size.toInt - extent.toInt) / stride.toInt + 1 := by
    rw [← hrows, Word.toInt_add_of_fits ⟨by rw [hdiv, hone]; omega, by rw [hdiv, hone]; omega⟩,
      hdiv, hone]
  have hmul := Int.ediv_mul_le (size.toInt - extent.toInt) (Int.ne_of_gt hstride)
  rw [hrows', add_sub_cancel_right]
  omega

/-- The dimensions pass the checks of a convolution. -/
theorem ConvShapes.checks (h : ConvShapes p input filter output) :
    input.conv2d filter output p.strides .ones = (Box.points p.outBox).foldlM
      (convElement input filter p.strides .ones p.windowBox) output := by
  obtain ⟨height, width, hdims, hreach⟩ := h.inputDims
  have hout : ∀ d ∈ p.outBox, 0 < d := h.outputDims ▸ h.proper.2.2.positive
  have hfil := h.proper.2.1.positive
  simp only [h.filterDims, Problem.outBox, forall_mem_cons] at hout hfil
  have hrows := not_lt_need hreach.strides.1 hout.2.2.1 hfil.2.2.1 hreach.rows
  have hcolumns := not_lt_need hreach.strides.2 hout.2.2.2.1 hfil.2.2.2.1 hreach.columns
  simp only [conv2d, hdims, h.filterDims, h.outputDims, Problem.outBox, Problem.windowBox,
    Pair.ones, ne_eq, not_true_eq_false, or_self, if_false, hrows, hcolumns, Box.foldM_eq_foldlM]

end Tensor

end ConvNest
