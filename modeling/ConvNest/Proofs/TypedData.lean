/-
# Data of types

A datum is admitted by a type if it is of the kind that the type tells: an index, a scalar of the
element type, or a tensor whose shape is compatible with the declared one.  A tensor has to be well
formed: it has as many elements as its dimensions ask for, and words are wrapped to the element
type.

What reads, stores, moves or reshapes elements gives well-formed tensors again.
-/
import ConvNest.Program.Eval
import ConvNest.Proofs.ProperTensor

namespace ConvNest

open List

theorem Element.wrapInt_zero (e : Element) : e.wrapInt 0 = 0 := by
  cases e <;> decide

/-! ## 1. Scalars -/

/-- A scalar of an element type; its word, if that is what counts, is wrapped to the type. -/
structure Scalar.Of (e : Element) (s : Scalar) : Prop where
  elem : s.elem = e
  wrapped : e.isFloat = false → e.wrapInt s.int = s.int

namespace Scalar

theorem of_ofInt (e : Element) (n : Int64) : (ofInt e n).Of e :=
  ⟨rfl, fun _ => e.wrapInt_wrapInt n⟩

theorem of_ofFloat (e : Element) (x : Float) : (ofFloat e x).Of e := by
  unfold ofFloat
  split
  · next hf => exact ⟨rfl, fun h => absurd (h.symm.trans hf) (by simp)⟩
  · exact ⟨rfl, fun _ => e.wrapInt_wrapInt _⟩

end Scalar

/-! ## 2. Tensors -/

/-- Elements of an element type. -/
structure Elements.Of (e : Element) (xs : Elements) : Prop where
  kind : xs.isFloat = e.isFloat
  wrapped : ∀ n ∈ xs.words, e.wrapInt n = n

namespace Elements

variable {e : Element} {xs : Elements}

theorem Of.setInts {ys : Array Int64} (h : (ints ys).Of e) (i : Nat) (n : Int64) :
    (ints (ys.setIfInBounds i (e.wrapInt n))).Of e where
  kind := h.kind
  wrapped m hm := by
    rw [words, Array.toList_setIfInBounds] at hm
    rcases mem_or_eq_of_mem_set hm with hm | rfl
    · exact h.wrapped m hm
    · exact e.wrapInt_wrapInt n

theorem Of.setFloats {ys : Array Float} (h : (floats ys).Of e) (i : Nat) (x : Float) :
    (floats (ys.setIfInBounds i x)).Of e :=
  ⟨h.kind, fun _ hm => (not_mem_nil hm).elim⟩

theorem Of.setScalar (h : xs.Of e) (i : Nat) (s : Scalar) : (xs.setScalar e i s).Of e := by
  cases xs with
  | floats ys => exact h.setFloats i _
  | ints ys => exact h.setInts i _

theorem Of.setMoved (h : xs.Of e) (i : Nat) (s : Scalar) : (xs.setMoved e i s).Of e := by
  cases xs with
  | floats ys => exact h.setFloats i _
  | ints ys => exact h.setInts i _

variable (e : Element)

theorem size_setScalar (xs : Elements) (i : Nat) (s : Scalar) :
    (xs.setScalar e i s).size = xs.size := by
  cases xs <;> simp [Elements.setScalar, size]

theorem size_setMoved (xs : Elements) (i : Nat) (s : Scalar) :
    (xs.setMoved e i s).size = xs.size := by
  cases xs <;> simp [Elements.setMoved, size]

theorem of_zeros (n : Nat) : (zeros e n).Of e := by
  unfold zeros
  split
  · next hf => exact ⟨hf.symm, fun _ hm => (not_mem_nil hm).elim⟩
  · next hf =>
    refine ⟨by simpa [isFloat] using hf, fun m hm => ?_⟩
    rw [eq_of_mem_replicate hm, e.wrapInt_zero]

theorem size_zeros (n : Nat) : (zeros e n).size = n := by
  unfold zeros
  split <;> simp [size]

end Elements

namespace Tensor

/-- A tensor with as many elements as its dimensions ask for, all of its element type. -/
structure WellFormed (t : Tensor) : Prop where
  elements : t.data.Of t.elem
  size : (t.data.size : Int) = t.size.toInt

/-- A tensor with the element type and the dimensions of another one, and elements of its own. -/
structure Refills (t u : Tensor) : Prop where
  elem : u.elem = t.elem
  dims : u.dims = t.dims
  wellFormed : u.WellFormed

variable {t u : Tensor} {is os zs : List Int64}
variable {w : Tensor} {s : Scalar}

theorem WellFormed.refills (h : t.WellFormed) : Refills t t := ⟨rfl, rfl, h⟩

theorem Refills.trans (h : Refills t u) (h' : Refills u w) : Refills t w :=
  ⟨h'.elem.trans h.elem, h'.dims.trans h.dims, h'.wellFormed⟩

theorem WellFormed.scalarAt (h : t.WellFormed) (hs : t.scalarAt is = .ok s) : s.Of t.elem := by
  obtain ⟨i, -, hs⟩ := except_bind_eq_ok.1 hs
  unfold flat at hs
  split at hs
  · next s' hget =>
    cases hs
    have hkind := h.elements.kind
    have hwrapped := h.elements.wrapped
    unfold Elements.get? at hget
    split at hget
    · cases hget
    · cases hd : t.data with
      | floats xs =>
        rw [hd] at hget hkind
        obtain ⟨x, -, rfl⟩ := Option.map_eq_some_iff.1 hget
        exact ⟨rfl, fun hf => absurd (hkind.trans hf) (by simp [Elements.isFloat])⟩
      | ints xs =>
        rw [hd] at hget hwrapped
        obtain ⟨n, hn, rfl⟩ := Option.map_eq_some_iff.1 hget
        exact ⟨rfl, fun _ => hwrapped n (Array.mem_toList_iff.2 (Array.mem_of_getElem? hn))⟩
  · cases hs

theorem WellFormed.setScalar (h : t.WellFormed) (hu : t.setScalar is s = .ok u) : Refills t u := by
  obtain ⟨i, -, hu⟩ := except_bind_eq_ok.1 hu
  split at hu
  · cases hu
  · obtain rfl := except_pure_eq_ok.1 hu
    refine ⟨rfl, rfl, h.elements.setScalar _ s, ?_⟩
    rw [Elements.size_setScalar]
    exact h.size

theorem WellFormed.setMoved (h : t.WellFormed) {i : Int64} (hu : t.setMoved i s = .ok u) :
    Refills t u := by
  unfold Tensor.setMoved at hu
  split at hu
  · cases hu
  · cases hu
    refine ⟨rfl, rfl, h.elements.setMoved _ s, ?_⟩
    rw [Elements.size_setMoved]
    exact h.size

theorem zeros_wellFormed {s : Shape} (h : zeros s = .ok t) :
    t.WellFormed ∧ t.elem = s.elem ∧ t.dims = s.words := by
  obtain ⟨n, hn, ht⟩ := except_bind_eq_ok.1 h
  obtain rfl := except_pure_eq_ok.1 ht
  obtain ⟨-, -, hn⟩ := except_bind_eq_ok.1 hn
  dsimp only at hn
  split at hn
  · cases hn
  · next hpos =>
    obtain rfl := except_pure_eq_ok.1 hn
    refine ⟨⟨Elements.of_zeros _ _, ?_⟩, rfl, rfl⟩
    have hnonneg : 0 ≤ (Shape.product s.words).toInt := by
      rw [not_or] at hpos
      have := Int64.not_lt.1 hpos.1
      exact Int64.le_iff_toInt_le.1 this
    show ((Elements.zeros s.elem _).size : Int) = (Shape.product s.words).toInt
    rw [Elements.size_zeros]
    omega

theorem WellFormed.reshape (h : t.WellFormed) {s : Shape} (hu : t.reshape s = .ok u) :
    u.WellFormed ∧ u.elem = s.elem ∧ u.dims = s.words ∧ s.isStatic = true := by
  obtain ⟨n, hn, hu⟩ := except_bind_eq_ok.1 hu
  unfold Shape.size at hn
  split at hn
  · next hs =>
    cases hn
    split at hu
    · cases hu
    · next heq =>
      rw [not_or, not_not, not_not] at heq
      obtain rfl := except_pure_eq_ok.1 hu
      refine ⟨⟨h.elements, ?_⟩, heq.2.symm, rfl, hs⟩
      rw [Tensor.size, heq.1]
      exact h.size
  · cases hn

theorem make_eq {e : Element} {ns : List Int64} {s : Shape} (h : Shape.make e ns = .ok s) :
    s = ⟨e, ns.map Dim.ofWord⟩ := by
  unfold Shape.make at h
  split at h
  · exact (Except.ok.inj h).symm
  · cases h

theorem extractSlice_wellFormed (h : t.extractSlice os zs = .ok u) :
    u.WellFormed ∧ u.elem = t.elem ∧ u.dims = zs := by
  unfold extractSlice at h
  simp only [except_bind_eq_ok] at h
  obtain ⟨-, -, s, hs, out, hout, h⟩ := h
  obtain ⟨hwf, helem, hdims⟩ := zeros_wellFormed hout
  have hrefills : Refills out u := by
    refine Shape.foldIndices_invariant (I := Refills out) ?_ h hwf.refills
    intro w k p w' _ hw hstep
    obtain ⟨x, -, hstep⟩ := except_bind_eq_ok.1 hstep
    exact hw.trans (hw.wellFormed.setMoved hstep)
  refine ⟨hrefills.wellFormed, ?_, ?_⟩
  · rw [hrefills.elem, helem, make_eq hs]
  · rw [hrefills.dims, hdims, make_words hs]

theorem WellFormed.insertSlice (h : u.WellFormed) (hw : t.insertSlice u os zs = .ok w) :
    Refills u w := by
  obtain ⟨-, -, hw⟩ := except_bind_eq_ok.1 hw
  obtain ⟨-, -, hw⟩ := except_bind_eq_ok.1 hw
  refine Shape.foldIndices_invariant (I := Refills u) ?_ hw h.refills
  intro x k p y _ hx hstep
  obtain ⟨i, -, hstep⟩ := except_bind_eq_ok.1 hstep
  obtain ⟨s, -, hstep⟩ := except_bind_eq_ok.1 hstep
  exact hx.trans (hx.wellFormed.setMoved hstep)

theorem WellFormed.conv2d (h : u.WellFormed) {input filter : Tensor} {strides dilations : Pair}
    (hw : input.conv2d filter u strides dilations = .ok w) : Refills u w := by
  unfold Tensor.conv2d at hw
  split at hw
  · split at hw
    · cases hw
    · dsimp only at hw
      split at hw
      · cases hw
      · rw [Box.foldM_eq_foldlM, ← toOption_eq_some, toOption_foldlM] at hw
        refine foldlM_invariant (I := Refills u) ?_ hw h.refills
        intro x p y _ hx hstep
        obtain ⟨acc, -, hstep⟩ := except_bind_eq_ok.1 (toOption_eq_some.1 hstep)
        obtain ⟨s, -, hstep⟩ := except_bind_eq_ok.1 hstep
        exact hx.trans (hx.wellFormed.setScalar hstep)
  · cases hw

end Tensor

/-! ## 3. Types -/

/-- A word can stand for a dimension. -/
def Dim.Allows (d : Dim) (n : Int64) : Prop := d = .dynamic ∨ d = .static n

/-- A static shape is compatible with another one if its dimensions are allowed there. -/
theorem Shape.compatible_ofSizes {s : Shape} {e : Element} {ns : List Int64} :
    s.compatible (.ofSizes e ns) = true ↔ s.elem = e ∧ Forall₂ Dim.Allows s.dims ns := by
  obtain ⟨e', ds⟩ := s
  have hdims : (ds.length = ns.length ∧
      ((ds.zip (ns.map Dim.static)).all fun p => p.1.agrees p.2) = true) ↔
        Forall₂ Dim.Allows ds ns := by
    induction ds generalizing ns with
    | nil => cases ns <;> simp
    | cons d ds ih =>
      cases ns with
      | nil => simp
      | cons n ns =>
        have hd : d.agrees (.static n) = true ↔ d.Allows n := by
          cases d <;> simp [Dim.agrees, Dim.Allows]
        rw [forall₂_cons, ← ih, ← hd]
        simp only [map_cons, length_cons, zip_cons_cons, all_cons, Bool.and_eq_true,
          Nat.succ_inj]
        exact and_left_comm
  simp only [compatible, ofSizes, rank, Bool.and_eq_true, beq_iff_eq, and_assoc, length_map, hdims]

namespace Program

/-- The datum is of the kind that the type tells. -/
inductive Ty.Admits : Ty → Datum → Prop
  | index (n : Int64) : Admits .index (.index n)
  | scalar {e : Element} {s : Scalar} (h : s.Of e) : Admits (.scalar e) (.scalar s)
  | tensor {s : Shape} {t : Tensor} (hs : s.compatible t.shape = true) (ht : t.WellFormed) :
    Admits (.tensor s) (.tensor t)

namespace Ty

variable {ty : Ty} {t : Tensor}

theorem Admits.of_tensor (h : ty.Admits (.tensor t)) :
    ∃ s, ty = .tensor s ∧ s.elem = t.elem ∧ Forall₂ Dim.Allows s.dims t.dims ∧ t.WellFormed := by
  cases h with
  | tensor hs ht =>
    obtain ⟨helem, hdims⟩ := Shape.compatible_ofSizes.1 hs
    exact ⟨_, rfl, helem, hdims, ht⟩

theorem Admits.of_scalar {s : Scalar} (h : ty.Admits (.scalar s)) :
    ∃ e, ty = .scalar e ∧ s.Of e := by
  cases h with
  | scalar h => exact ⟨_, rfl, h⟩

theorem admits_tensor {s : Shape} (helem : s.elem = t.elem)
    (hdims : Forall₂ Dim.Allows s.dims t.dims) (ht : t.WellFormed) :
    (Ty.tensor s).Admits (.tensor t) :=
  .tensor (Shape.compatible_ofSizes.2 ⟨helem, hdims⟩) ht

/-- Tensors that differ in their elements only are of the same types. -/
theorem Admits.refills {u : Tensor} (h : ty.Admits (.tensor t)) (hu : t.Refills u) :
    ty.Admits (.tensor u) := by
  obtain ⟨s, rfl, helem, hdims, -⟩ := h.of_tensor
  exact admits_tensor (helem.trans hu.elem.symm) (hu.dims.symm ▸ hdims) hu.wellFormed

end Ty

end Program

end ConvNest
