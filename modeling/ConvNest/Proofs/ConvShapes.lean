/-
# Three views of the shapes of a convolution

A convolution is described by an input, a filter and strides, from which the shape of the output is
computed (`Convolution.make`).  To tile it, its shapes are compared with the extents (`problemOf`),
and to run it, the input is compared with what the output needs (`conv2d`).

The first two accept the same shapes (`problemOf_iff_make`), as long as the size of an output
element is known; for a type without one there is no problem to tile (`problemOf_no_size`).  What
they accept can be run on tensors of any element type: every element that is read is there
(`ConvShapes.conv2d_ok`), if the tensors store all the elements of their shapes.  They do not, if
the number of elements is no word (`conv2d_not_stored`).
-/
import ConvNest.Command.Request
import ConvNest.Proofs.Accepted
import ConvNest.Proofs.SliceElements

namespace ConvNest

open Program Schedule List

/-! ## 1. Running -/

namespace Tensor

variable {t u input filter output : Tensor} {q : Problem} {out point : List Int64}

variable (h : ConvShapes q input filter output)

include h

theorem ConvShapes.step_ok (hout : Inside q.outBox out) (hpoint : Inside q.windowBox point)
    (e : Element) (acc : Scalar) :
    ∃ s, convStep input filter e q.strides .ones out acc point = .ok s := by
  obtain ⟨b, o, y, x, rfl⟩ := inside_four hout
  obtain ⟨c, ky, kx, rfl⟩ := inside_three hpoint
  obtain ⟨hin, hfil⟩ := h.factors hout hpoint
  obtain ⟨m, hm⟩ := h.proper.1.read hin
  obtain ⟨n, hn⟩ := h.proper.2.1.read hfil
  refine ⟨Scalar.multiplyAdd e acc m n, ?_⟩
  simp only [convStep, Pair.ones, Int64.mul_one, hm, hn, bind, Except.bind, pure, Except.pure]

theorem ConvShapes.element_ok (ht : output.Refills t) (hout : Inside q.outBox out) :
    ∃ u, convElement input filter q.strides .ones q.windowBox t out = .ok u ∧ output.Refills u := by
  have hproper : t.Proper := ht.wellFormed.proper (ht.dims ▸ h.proper.2.2.pos)
    (ht.dims ▸ h.proper.2.2.fits)
  have hin : Inside t.dims out := by
    rw [ht.dims, h.outputDims]
    exact hout
  obtain ⟨acc, hacc⟩ := hproper.read hin
  obtain ⟨s, hs, -⟩ : ∃ s,
    (Box.points q.windowBox).foldlM (convStep input filter t.elem q.strides .ones out) acc =
      .ok s ∧ True :=
    foldlM_ok (fun acc p hp _ => (h.step_ok hout (Box.mem_points.1 hp) _ acc).imp fun _ hs =>
      ⟨hs, trivial⟩) trivial
  obtain ⟨u, hu⟩ := hproper.store hin s
  exact ⟨u, by simp only [convElement, hacc, Box.foldM_eq_foldlM, hs, bind, Except.bind, hu],
    ht.trans (ht.wellFormed.setScalar hu)⟩

/-- **A convolution of tensors of the right shapes is computed**, so it reads nothing that is not
there. -/
theorem ConvShapes.conv2d_ok : ∃ t, input.conv2d filter output q.strides .ones = .ok t := by
  obtain ⟨t, ht, -⟩ := foldlM_ok (fun t out hout ht => h.element_ok ht (Box.mem_points.1 hout))
    h.proper.2.2.wellFormed.refills
  exact ⟨t, h.checks.trans ht⟩

end Tensor

/-! ## 2. Describing -/

/-- The filter spans as many windows of the input, along one axis. -/
def Spans (input filter stride windows : Int64) : Prop :=
  0 < stride ∧ ¬ input < filter ∧ (input - filter) / stride + 1 = windows

namespace Command.Convolution

variable {input filter : List Int64} {strides : Pair} {axis : Nat} {i f o stride : Int64}

theorem outputSize_iff (hi : itemAt input axis = .ok i) (hf : itemAt filter axis = .ok f)
    (hpos : 0 < i ∧ 0 < f) :
    (outputSize input filter strides axis stride).run = .ok (.ok o) ↔ Spans i f stride o := by
  have hlt : i - f < 0 ↔ i < f := by
    have hi := Word.toInt_pos hpos.1
    have hf := Word.toInt_pos hpos.2
    have hmax := i.toInt_lt
    have hmax' := f.toInt_lt
    rw [Int64.lt_iff_toInt_lt, Int64.lt_iff_toInt_lt, Word.toInt_sub_of_fits ⟨by omega, by omega⟩]
    exact sub_neg
  rw [outputSize, hi, hf, Spans, ← Int64.not_le, ← hlt]
  split
  · next h => exact ⟨fun hok => (by cases hok), fun hs => absurd h hs.1⟩
  simp only [Inquiry.run_bind_eq_ok, Inquiry.run_lift_eq_ok, Except.ok.injEq, exists_eq_left']
  split
  · next h => exact ⟨fun hok => (by cases hok), fun hs => absurd h hs.2.1⟩
  · next h h' => rw [Inquiry.run_pure_eq_ok]; simp [h, h']

theorem make_iff {e acc : Element} {n c h w m c' fh fw a b oh ow : Int64}
    (hpos : ∀ d ∈ [n, c, h, w] ++ [m, c', fh, fw] ++ [a, b, oh, ow], 0 < d) :
    (∃ x, (make e acc [n, c, h, w] [m, c', fh, fw] strides).run = .ok (.ok x) ∧
      x.output = .ofSizes acc [a, b, oh, ow]) ↔
    c = c' ∧ n = a ∧ m = b ∧ Spans h fh strides.height oh ∧ Spans w fw strides.width ow := by
  have hmake (e : Element) {ns : List Int64}
      (hns : ∀ d ∈ ns, 0 < d) : Shape.make e ns = .ok (.ofSizes e ns) :=
    Tensor.make_ofSizes fun d hd => Word.toInt_pos (hns d hd)
  simp only [forall_mem_append] at hpos
  simp only [make, Inquiry.run_bind_eq_ok, Inquiry.run_lift_eq_ok, itemAt_ok, getElem?_cons_succ,
    getElem?_cons_zero, Option.some.injEq, exists_eq_left']
  by_cases hc : c = c'
  · rw [if_neg (not_not.2 hc)]
    have hin := hpos.1.1
    have hfil := hpos.1.2
    simp only [forall_mem_cons] at hin hfil
    have hrows : itemAt [n, c, h, w] 2 = .ok h := rfl
    have hrows' : itemAt [m, c', fh, fw] 2 = .ok fh := rfl
    have hcolumns : itemAt [n, c, h, w] 3 = .ok w := rfl
    have hcolumns' : itemAt [m, c', fh, fw] 3 = .ok fw := rfl
    simp only [Inquiry.run_bind_eq_ok, Inquiry.run_lift_eq_ok, itemAt_ok, getElem?_cons_zero,
      Option.some.injEq, exists_eq_left', Inquiry.run_pure_eq_ok, hmake _ hpos.1.1,
      hmake _ hpos.1.2, Except.ok.injEq, outputSize_iff hrows hrows' ⟨hin.2.2.1, hfil.2.2.1⟩,
      outputSize_iff hcolumns hcolumns' ⟨hin.2.2.2.1, hfil.2.2.2.1⟩]
    constructor
    · rintro ⟨_, ⟨y, hy, x, hx, s, hs, rfl⟩, hout⟩
      have hwords := congrArg Shape.words ((Tensor.make_eq hs).symm.trans hout)
      simp only [Shape.words, map_cons, Dim.toWord_ofWord] at hwords
      obtain ⟨rfl, rfl, rfl, rfl⟩ := hwords
      exact ⟨hc, rfl, rfl, hy, hx⟩
    · rintro ⟨-, rfl, rfl, hy, hx⟩
      exact ⟨_, ⟨_, hy, _, hx, _, hmake acc hpos.2, rfl⟩, rfl⟩
  · rw [if_pos hc]
    refine ⟨?_, fun h => absurd h.1 hc⟩
    rintro ⟨_, h, -⟩
    cases h

end Command.Convolution

/-! ## 3. Tiling -/

namespace Conv

variable {g : Graph} {i : OpId} {x : Operands} {e acc : Element}
  {n c h w m c' fh fw a b oh ow : Int64}

/-- **What can be tiled is what can be described**, if the size of an output element is known, and
it can be run.  `make` computes the sizes of the output as `(input - filter) / stride + 1`, and
`problemOf` compares the declared ones with the same quotients; both refuse a filter that is larger
than the input and a stride that is not positive.  The last window then ends within the input, so
that `conv2d` reads no element that is not there, if the tensors store all of theirs. -/
theorem problemOf_iff_make (hx : (operandsOf g i).run = .ok (.ok (x, .ones)))
    (hin : g.ty x.input = .tensor (.ofSizes e [n, c, h, w]))
    (hfil : g.ty x.filter = .tensor (.ofSizes e [m, c', fh, fw]))
    (hout : g.ty x.output = .tensor (.ofSizes acc [a, b, oh, ow]))
    (hpos : ∀ d ∈ [n, c, h, w] ++ [m, c', fh, fw] ++ [a, b, oh, ow], 0 < d)
    (hsigned : e.isUnsigned = false ∧ acc.isUnsigned = false)
    (hwiden : Element.canWiden e acc = true) (v : Int64) :
    ((∃ p y, (problemOf g i v).run = .ok (.ok (p, y))) ↔ (∃ bytes, acc.size? = some bytes) ∧
      ∃ d, (Command.Convolution.make e acc [n, c, h, w] [m, c', fh, fw] x.strides).run =
        .ok (.ok d) ∧ d.output = .ofSizes acc [a, b, oh, ow]) ∧
    ((∃ p y, (problemOf g i v).run = .ok (.ok (p, y))) → ∀ input filter output : Tensor,
      input.Proper ∧ filter.Proper ∧ output.Proper → input.dims = [n, c, h, w] →
      filter.dims = [m, c', fh, fw] →
      output.dims = [a, b, oh, ow] → ∃ t, input.conv2d filter output x.strides .ones = .ok t) := by
  have hiff : (∃ p y, (problemOf g i v).run = .ok (.ok (p, y))) ↔
    (∃ bytes, acc.size? = some bytes) ∧
      c = c' ∧ n = a ∧ m = b ∧ Spans h fh x.strides.height oh ∧ Spans w fw x.strides.width ow := by
    constructor
    · rintro ⟨p, y, hp⟩
      obtain ⟨hy, -, hext, hs, hcons, -⟩ := problemOf_iff.1 hp
      obtain ⟨rfl, -⟩ := Prod.mk.inj (Except.ok.inj (Except.ok.inj (hx.symm.trans hy)))
      rw [hin, hfil, hout] at hext
      rw [hin, hfil] at hcons
      obtain ⟨bytes, hbytes, rfl⟩ := extents_ofSizes.1 hext
      obtain ⟨hn, hm, hc, hle, hrows, hcolumns⟩ := consistent_ofSizes.1 hcons
      exact ⟨⟨bytes, hbytes⟩, hc.symm, hn, hm, ⟨hs.1, hle.1, hrows⟩, hs.2, hle.2, hcolumns⟩
    · rintro ⟨⟨bytes, hbytes⟩, rfl, rfl, rfl, ⟨hsh, hleh, hrows⟩, hsw, hlew, hcolumns⟩
      refine ⟨⟨n, c, m, ⟨fh, fw⟩, ⟨oh, ow⟩, x.strides, v, Int64.ofNat bytes⟩, x,
        problemOf_iff.2 ⟨hx, ?_, ?_, ⟨hsh, hsw⟩, ?_, ?_, ?_⟩⟩
      · simp [hin, hfil, hout, Ty.shape]
      · rw [hin, hfil, hout]
        exact extents_ofSizes.2 ⟨bytes, hbytes, rfl⟩
      · rw [hin, hfil]
        exact consistent_ofSizes.2 ⟨rfl, rfl, rfl, ⟨hleh, hlew⟩, hrows, hcolumns⟩
      · simp [hin, hfil, hout, Ty.elem, Ty.shape, hsigned]
      · simp [hin, hfil, hout, Ty.elem, Ty.shape, hwiden]
  refine ⟨hiff.trans (and_congr_right' (Command.Convolution.make_iff hpos).symm), ?_⟩
  intro hok input filter output hproper hidims hfdims hodims
  obtain ⟨-, rfl, rfl, rfl, ⟨hsh, hleh, hrows⟩, hsw, hlew, hcolumns⟩ := hiff.1 hok
  have hfh : 0 < fh := hpos fh (by simp)
  have hfw : 0 < fw := hpos fw (by simp)
  have hshapes : Tensor.ConvShapes ⟨n, c, m, ⟨fh, fw⟩, ⟨oh, ow⟩, x.strides, v, 0⟩
      input filter output :=
    ⟨hproper, ⟨h, w, hidims, ⟨hsh, hsw⟩, Tensor.reaches_of_rows hfh hsh hleh hrows,
      Tensor.reaches_of_rows hfw hsw hlew hcolumns⟩, hfdims, hodims⟩
  exact hshapes.conv2d_ok

/-- A program with a convolution. -/
def described (c : Command.Convolution) : Graph :=
  match c.build .empty with
  | .ok _ e => e.graph
  | .error _ _ => .empty

/-- Bytes are accumulated into words of two bytes, at every second column. -/
theorem problemOf_iff_make_bytes :
    ∃ p y, (problemOf (described ⟨.ofSizes .int8 [1, 1, 2, 5], .ofSizes .int8 [3, 1, 1, 2],
      .ofSizes .int16 [1, 3, 2, 2], ⟨1, 2⟩⟩) ⟨0⟩ 4).run = .ok (.ok (p, y)) :=
  (problemOf_iff_make (x := ⟨⟨0⟩, ⟨0⟩, ⟨1⟩, ⟨2⟩, ⟨1, 2⟩⟩) rfl rfl rfl rfl (by simp) (by decide)
    (by decide) 4).1.2 ⟨⟨2, rfl⟩, _, rfl, rfl⟩

/-- Elements of four bits are signed and accumulated into themselves, and have no size. -/
theorem problemOf_no_size :
    let c : Command.Convolution :=
      ⟨.ofSizes .s4 [1, 1, 2, 2], .ofSizes .s4 [1, 1, 1, 1], .ofSizes .s4 [1, 1, 2, 2], ⟨1, 1⟩⟩
    Element.s4.isUnsigned = false ∧ Element.canWiden .s4 .s4 = true ∧
    (Command.Convolution.make .s4 .s4 [1, 1, 2, 2] [1, 1, 1, 1] ⟨1, 1⟩).run = .ok (.ok c) ∧
    (operandsOf (described c) ⟨0⟩).run = .ok (.ok (⟨⟨0⟩, ⟨0⟩, ⟨1⟩, ⟨2⟩, ⟨1, 1⟩⟩, .ones)) ∧
    (problemOf (described c) ⟨0⟩ 4).run = .error (.unknownSize .s4) :=
  ⟨rfl, rfl, rfl, rfl, rfl⟩

/-- The number of elements wraps around to zero, so that a tensor of this shape stores none: both
accept the shapes, and the first element that is read is not there. -/
theorem conv2d_not_stored :
    let c : Command.Convolution := ⟨.ofSizes .int32 [1, 4294967296, 4294967296, 1],
      .ofSizes .int32 [1, 4294967296, 4294967296, 1], .ofSizes .int32 [1, 1, 1, 1], ⟨1, 1⟩⟩
    let t : Tensor := ⟨.int32, [1, 4294967296, 4294967296, 1], .ints #[]⟩
    t.size = 0 ∧
    (Command.Convolution.make .int32 .int32 t.dims t.dims ⟨1, 1⟩).run = .ok (.ok c) ∧
    (∃ p y, (problemOf (described c) ⟨0⟩ 4).run = .ok (.ok (p, y))) ∧
    t.conv2d t ⟨.int32, [1, 1, 1, 1], .ints #[0]⟩ ⟨1, 1⟩ .ones = .error (.stuck .position) :=
  ⟨rfl, rfl, ⟨_, _, rfl⟩, rfl⟩

end Conv

end ConvNest
