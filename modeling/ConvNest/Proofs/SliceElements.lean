/-
# What moves through a slice

The elements of a slice move one by one in row-major order, each by way of a double.  On proper
tensors every such move succeeds: the slice that is read holds the elements under it
(`extractSlice_moves`), and a slice that is written leaves everything around it as it was
(`insertSlice_moves`).

What a move leaves of a word is `Element.moved`.  It is the word itself as long as a double can hold
it, which is so for every type of at most 32 bits (`Element.moved_of_narrow`); a word of 64 bits may
lose its low bits (`extractSlice_loses_bits`).
-/
import ConvNest.Proofs.TypedData
import Mathlib.Algebra.Order.BigOperators.GroupWithZero.List

namespace ConvNest

open List

/-! ## 1. Words by way of a double -/

namespace Element

/-- What is left of a word that moves to an element of the type. -/
def moved (e : Element) (n : Int64) : Int64 := e.wrapInt (throughDouble n)

/-- The types of truth values and of integers of at most 32 bits. -/
def isNarrow : Element → Bool
  | bool | int8 | int16 | int32 | uint8 | uint16 | uint32 => true
  | _ => false

theorem roundShift_mul_unit (q k : Nat) : roundShift (q * Nat.pow 2 k) k = q := by
  have hpos : 0 < Nat.pow 2 k := Nat.pow_pos (by decide)
  simp [roundShift]

variable {n : Int64}

/-- Whole numbers of at most 53 bits are doubles. -/
theorem throughDouble_of_small (h : n.toInt.natAbs ≤ 9007199254740992) :
    throughDouble n = n := by
  have hrounded : ∃ q k, n.toInt.natAbs = q * Nat.pow 2 k ∧ k = n.toInt.natAbs.log2 + 1 - 53 := by
    rcases Nat.lt_or_eq_of_le h with hlt | heq
    · refine ⟨n.toInt.natAbs, 0, (Nat.mul_one _).symm, ?_⟩
      have : n.toInt.natAbs.log2 < 53 := by
        by_cases hz : n.toInt.natAbs = 0
        · simp [hz]
        · exact (Nat.log2_lt hz).2 hlt
      omega
    · exact ⟨4503599627370496, 1, by rw [heq], by rw [heq]; decide +kernel⟩
  obtain ⟨q, k, hsize, hk⟩ := hrounded
  have hsign : (if n < 0 then -(n.toInt.natAbs : Int) else n.toInt.natAbs) = n.toInt := by
    split
    · next hneg =>
      rw [Int64.lt_iff_toInt_lt, Int64.toInt_zero] at hneg
      omega
    · next hneg =>
      rw [Word.not_lt_zero_iff] at hneg
      omega
  simp only [throughDouble, ← hk]
  rw [hsize, roundShift_mul_unit, ← hsize, hsign, Int64.ofInt_toInt]

theorem natAbs_toInt64_le {n : UInt64} (h : n.toNat ≤ 4294967296) :
    n.toInt64.toInt.natAbs ≤ 4294967296 := by
  rw [← Int64.toInt_toBitVec, UInt64.toBitVec_toInt64, BitVec.toInt_eq_toNat_of_lt]
  · simpa using h
  · simp only [UInt64.toNat_toBitVec]
    omega

variable {e : Element}

theorem wrapInt_small (h : e.isNarrow = true) (n : Int64) :
    (e.wrapInt n).toInt.natAbs ≤ 4294967296 := by
  cases e with
  | bool =>
    simp only [wrapInt]
    split <;> decide
  | int8 =>
    have := n.toInt8.toInt_lt
    have := n.toInt8.le_toInt
    rw [wrapInt, Int8.toInt_toInt64]
    omega
  | int16 =>
    have := n.toInt16.toInt_lt
    have := n.toInt16.le_toInt
    rw [wrapInt, Int16.toInt_toInt64]
    omega
  | int32 =>
    have := n.toInt32.toInt_lt
    have := n.toInt32.le_toInt
    rw [wrapInt, Int32.toInt_toInt64]
    omega
  | uint8 =>
    have := n.toUInt64.toUInt8.toNat_lt
    exact natAbs_toInt64_le (by rw [UInt8.toNat_toUInt64]; omega)
  | uint16 =>
    have := n.toUInt64.toUInt16.toNat_lt
    exact natAbs_toInt64_le (by rw [UInt16.toNat_toUInt64]; omega)
  | uint32 =>
    have := n.toUInt64.toUInt32.toNat_lt
    exact natAbs_toInt64_le (by rw [UInt32.toNat_toUInt64]; omega)
  | _ => simp [isNarrow] at h

/-- A word of a narrow type moves as it is. -/
theorem moved_of_narrow (h : e.isNarrow = true) (hn : e.wrapInt n = n) :
    e.moved n = n := by
  have hsmall := wrapInt_small h n
  rw [hn] at hsmall
  rw [moved, throughDouble_of_small (by omega), hn]

end Element

/-- What is left of a scalar that moves to an element of the type. -/
def Scalar.moved (e : Element) (s : Scalar) : Scalar :=
  if e.isFloat then ⟨e, e.roundFloat s.toFloat, 0⟩ else ⟨e, 0, e.wrapInt s.toIntThroughDouble⟩

/-- What has moved is found at its position, and all else where it was. -/
theorem Elements.get?_setMoved {e : Element} {xs : Elements}
    (hkind : xs.isFloat = e.isFloat) {i : Nat} (hi : i < xs.size)
    (s : Scalar) {j : Int64} (hj : ¬ j < 0) : (xs.setMoved e i s).get? e j =
      if j.toInt.toNat = i then some (s.moved e) else xs.get? e j := by
  cases xs with
  | floats xs | ints xs =>
    simp only [isFloat] at hkind
    simp only [setMoved, get?, hj, if_false, Scalar.moved, ← hkind, Array.getElem?_setIfInBounds]
    have hi : i < xs.size := hi
    split
    · next heq =>
      subst heq
      simp
    · next hne => rw [if_neg (Ne.symm hne)]

/-! ## 2. Walks in row-major order -/

namespace Tensor

variable {dims p : List Int64}

theorem range_mul (n m : Nat) :
    List.range (n * m) = (List.range n).flatMap fun i => (List.range m).map (i * m + ·) := by
  induction n with
  | zero => simp
  | succ n ih => rw [Nat.succ_mul, range_add, ih, range_succ]; simp

section

variable (h : ∀ d ∈ dims, 0 ≤ d.toInt)

include h

theorem volume_nonneg : 0 ≤ volume dims := prod_nonneg (forall_mem_map.2 h)

/-- The points of a box come in the order of their positions. -/
theorem rowMajor_points :
    (Box.points dims).map (fun p => (rowMajor dims p).toNat) = List.range (volume dims).toNat := by
  induction dims with
  | nil => simp [Box.points, rowMajor, volume]
  | cons d ds ih =>
    have hds := fun x hx => h x (mem_cons_of_mem d hx)
    have hd := h d mem_cons_self
    have hvol := volume_nonneg hds
    have hrow (i : Nat) (hi : i < d.toInt.toNat) : ((Box.points ds).map (Int64.ofNat i :: ·)).map
        (fun p => (rowMajor (d :: ds) p).toNat) =
          (List.range (volume ds).toNat).map (i * (volume ds).toNat + ·) := by
      have hlt := d.toInt_lt
      rw [← ih hds, map_map, map_map]
      refine map_congr_left fun p hp => ?_
      have := (rowMajor_bounds (Box.mem_points.1 hp)).1
      simp only [Function.comp_apply, rowMajor]
      rw [Int64.toInt_ofNat_of_lt (by omega), Int.toNat_add (by positivity) this,
        Int.toNat_mul (by omega) hvol, Int.toNat_natCast]
    rw [Box.points, Word.range, volume_cons, Int.toNat_mul hd hvol, range_mul, map_flatMap,
      flatMap_map]
    exact flatMap_congr fun i hi => hrow i (mem_range.1 hi)

/-- A point comes after as many points as its position says. -/
theorem rowMajor_of_split {done rest : List (List Int64)}
    (hsplit : Box.points dims = done ++ p :: rest) :
    (rowMajor dims p).toNat = done.length := by
  have hget : (List.range (volume dims).toNat)[done.length]? = some (rowMajor dims p).toNat := by
    rw [← rowMajor_points h, hsplit]
    simp
  obtain ⟨hlt, heq⟩ := List.getElem?_eq_some_iff.1 hget
  rw [← heq, getElem_range]

end

/-- A walk does not come back to a point. -/
theorem ne_of_split {q : List Int64} {done rest : List (List Int64)}
    (hsplit : Box.points dims = done ++ p :: rest) (hq : q ∈ done) : q ≠ p := by
  have hnodup := Box.nodup_points dims
  rw [hsplit] at hnodup
  exact (nodup_append.1 hnodup).2.2 q hq p mem_cons_self

/-- Every position below the volume is that of a point. -/
theorem exists_rowMajor (h : ∀ d ∈ dims, 0 ≤ d.toInt) {j : Nat} (hj : j < (volume dims).toNat) :
    ∃ p, Inside dims p ∧ (rowMajor dims p).toNat = j := by
  have hmem := mem_range.2 hj
  rw [← rowMajor_points h] at hmem
  obtain ⟨p, hp, hrow⟩ := mem_map.1 hmem
  exact ⟨p, Box.mem_points.1 hp, hrow⟩

end Tensor

namespace Shape

variable {β : Type} {s : Shape}

/-- A walk over the indices of a shape keeps what each of its steps keeps, and comes to its end if
each step succeeds. -/
theorem foldIndices_run {I : List (List Int64) → β → Prop}
    {f : β → Int64 → List Int64 → Except Fault β} (hs : (s.ok && s.isStatic) = true)
    (step : ∀ done p rest b, Box.points s.words = done ++ p :: rest → I done b →
      ∃ c, f b (Int64.ofNat done.length) p = .ok c ∧ I (done ++ [p]) c) {b : β} (hb : I [] b) :
    ∃ c, s.foldIndices f b = .ok c ∧ I (Box.points s.words) c := by
  have run (rest done : List (List Int64)) (b : β) (hsplit : Box.points s.words = done ++ rest)
    (hdone : I done b) :
      ∃ c, (rest.zipIdx done.length).foldlM (fun b x => f b (Int64.ofNat x.2) x.1) b = .ok c ∧
        I (Box.points s.words) c := by
    induction rest generalizing done b with
    | nil => exact ⟨b, rfl, by rw [hsplit, append_nil]; exact hdone⟩
    | cons p rest ih =>
      obtain ⟨c, hc, hnext⟩ := step done p rest b hsplit hdone
      obtain ⟨d, hd, hI⟩ := ih (done ++ [p]) c (by simpa using hsplit) hnext
      rw [length_append] at hd
      exact ⟨d, by rw [zipIdx_cons, foldlM_cons, hc]; exact hd, hI⟩
  rw [foldIndices_eq, if_pos hs]
  exact run _ [] b rfl hb

end Shape

/-! ## 3. Elements of proper tensors -/

namespace Tensor

variable {t u src : Tensor} {p q offsets sizes dims : List Int64} {e : Element}

theorem volume_pos (h : ∀ d ∈ dims, 0 < d.toInt) : 0 < volume dims := prod_pos (forall_mem_map.2 h)

theorem foldl_mul_toInt {acc : Int64} (hacc : 0 < acc.toInt) (h : ∀ d ∈ dims, 0 < d.toInt)
    (hfits : acc.toInt * volume dims < 2 ^ 63) :
    (dims.foldl (· * ·) acc).toInt = acc.toInt * volume dims := by
  induction dims generalizing acc with
  | nil => simp [volume]
  | cons d ds ih =>
    have hd := h d mem_cons_self
    have hds : ∀ x ∈ ds, 0 < x.toInt := fun x hx => h x (mem_cons_of_mem d hx)
    have hvol := volume_pos hds
    rw [volume_cons, ← mul_assoc] at hfits
    have hpos : 0 < acc.toInt * d.toInt := mul_pos hacc hd
    have hmul : (acc * d).toInt = acc.toInt * d.toInt := by
      refine Word.toInt_mul_of_fits ⟨by omega, ?_⟩
      exact (le_mul_of_one_le_right hpos.le (by omega)).trans_lt hfits
    rw [foldl_cons, ih (by omega) hds (by rw [hmul]; exact hfits), hmul, volume_cons, mul_assoc]

/-- As long as the volume is a word, sizes do not wrap around. -/
theorem product_toInt (h : ∀ d ∈ dims, 0 < d.toInt) (hfits : volume dims < 2 ^ 63) :
    (Shape.product dims).toInt = volume dims := by
  have := foldl_mul_toInt (show 0 < (1 : Int64).toInt by decide) h (by simpa using hfits)
  rw [Shape.product, this]
  simp

theorem WellFormed.proper (h : t.WellFormed) (hpos : ∀ d ∈ t.dims, 0 < d.toInt)
    (hfits : volume t.dims < 2 ^ 63) : t.Proper where
  positive d hd := Int64.lt_iff_toInt_lt.2 (hpos d hd)
  size := by rw [h.size, Tensor.size, product_toInt hpos hfits]
  fits := hfits
  kind := h.elements.kind
  wrapped := h.elements.wrapped

namespace Proper

variable (ht : t.Proper)

include ht

theorem pos : ∀ d ∈ t.dims, 0 < d.toInt := fun d hd =>
  Int64.lt_iff_toInt_lt.1 (ht.positive d hd)

theorem wellFormed : t.WellFormed :=
  ⟨⟨ht.kind, ht.wrapped⟩, by rw [ht.size, Tensor.size, product_toInt ht.pos ht.fits]⟩

section

variable (hp : Inside t.dims p)

include hp

/-- The position of an index is that of an element, of whatever type. -/
theorem place : ∃ i, t.flatIndex p = .ok i ∧ i.toInt = rowMajor t.dims p ∧ ¬ i < 0 ∧
    i.toInt.toNat < t.data.size := by
  obtain ⟨hi, hword⟩ := flatIndex_inside ht.fits hp
  have hbounds := rowMajor_bounds hp
  have hsize := ht.size
  exact ⟨_, hi, hword, Word.not_lt_zero_iff.2 (by omega), by omega⟩

theorem read : ∃ s, t.scalarAt p = .ok s := by
  obtain ⟨i, hi, -, hneg, hlt⟩ := ht.place hp
  have hget : ∃ s, t.data.get? t.elem i = some s := by
    unfold Elements.get?
    rw [if_neg hneg]
    cases hd : t.data with
    | floats xs | ints xs =>
      have hlt : i.toInt.toNat < xs.size := by simpa [hd, Elements.size] using hlt
      exact ⟨_, congrArg (Option.map _) (Array.getElem?_eq_getElem hlt)⟩
  obtain ⟨s, hs⟩ := hget
  exact ⟨s, by simp only [Tensor.scalarAt, hi, bind, Except.bind, flat, hs]⟩

/-- The word at an index is found at its position. -/
theorem wordAt {xs : Array Int64} (hxs : t.data = .ints xs) :
    ∃ n, xs[(rowMajor t.dims p).toNat]? = some n ∧ t.scalarAt p = .ok ⟨t.elem, 0, n⟩ := by
  obtain ⟨i, hi, hplace, hneg, hlt⟩ := ht.place hp
  rw [hxs, Elements.size] at hlt
  have hn := Array.getElem?_eq_getElem hlt
  refine ⟨_, by rw [← hplace]; exact hn, ?_⟩
  simp only [Tensor.scalarAt, hi, bind, Except.bind, flat, hxs, Elements.get?, hneg, if_false, hn,
    Option.map_some]

theorem store (s : Scalar) : ∃ u, t.setScalar p s = .ok u := by
  obtain ⟨i, hi, -, hneg, hlt⟩ := ht.place hp
  rw [Tensor.setScalar, hi]
  exact ⟨_, if_neg (not_or.2 ⟨hneg, Nat.not_le.2 hlt⟩)⟩

end

/-- A walk comes to an index at its position. -/
theorem flatIndex_of_split {done rest : List (List Int64)}
    (hsplit : Box.points t.dims = done ++ p :: rest) :
    t.flatIndex p = .ok (Int64.ofNat done.length) := by
  rw [← rowMajor_of_split (fun d hd => (ht.pos d hd).le) hsplit]
  exact (flatIndex_inside ht.fits (Box.mem_points.1 (by simp [hsplit]))).1

theorem refilled (hu : t.Refills u) : u.Proper :=
  hu.wellFormed.proper (hu.dims ▸ ht.pos) (hu.dims ▸ ht.fits)

/-- A scalar that moves to an index is found there, and all others are still where they were. -/
theorem setMoved (hp : Inside t.dims p) {i : Int64} (hi : t.flatIndex p = .ok i) (s : Scalar) :
    ∃ t', t.setMoved i s = .ok t' ∧ t.Refills t' ∧ t'.scalarAt p = .ok (s.moved t.elem) ∧
      ∀ q, Inside t.dims q → q ≠ p → t'.scalarAt q = t.scalarAt q := by
  obtain ⟨i', hi', hplace, hneg, hlt⟩ := ht.place hp
  obtain rfl : i = i' := Except.ok.inj (hi.symm.trans hi')
  have hset : t.setMoved i s = .ok { t with data := t.data.setMoved t.elem i.toInt.toNat s } :=
    if_neg (not_or.2 ⟨hneg, Nat.not_le.2 hlt⟩)
  have hget (j : Int64) (hj : ¬ j < 0) := Elements.get?_setMoved ht.kind hlt s hj
  refine ⟨_, hset, ht.wellFormed.setMoved hset, ?_, fun q hq hne => ?_⟩
  · show (t.flatIndex p >>= flat _) = _
    rw [hi]
    show flat _ i = _
    simp only [flat, hget i hneg, if_true]
  · obtain ⟨j, hj, hother, hnegj, -⟩ := ht.place hq
    have hapart : ¬ j.toInt.toNat = i.toInt.toNat := fun heq => by
      have hp0 := rowMajor_bounds hp
      have hq0 := rowMajor_bounds hq
      exact hne (rowMajor_inj hq hp (by omega))
    show (t.flatIndex q >>= flat _) = t.flatIndex q >>= flat _
    rw [hj]
    show flat _ j = flat _ j
    simp only [flat, hget j hnegj, hapart, if_false]

/-- Proper tensors with the same elements are equal. -/
theorem ext (hu : u.Proper) (hf : t.elem.isFloat = false) (helem : u.elem = t.elem)
    (hdims : u.dims = t.dims) (h : ∀ p, Inside t.dims p → u.scalarAt p = t.scalarAt p) : u = t := by
  obtain ⟨xs, hxs⟩ := ht.ints hf
  obtain ⟨ys, hys⟩ := hu.ints (helem ▸ hf)
  have hxsize := ht.size
  have hysize := hu.size
  rw [hxs, Elements.size] at hxsize
  rw [hys, Elements.size, hdims] at hysize
  have hsame : ys = xs := by
    refine Array.ext_getElem? fun j => ?_
    by_cases hj : j < (volume t.dims).toNat
    · obtain ⟨p, hp, rfl⟩ := exists_rowMajor (fun d hd => (ht.pos d hd).le) hj
      obtain ⟨m, hm, hread⟩ := ht.wordAt hp hxs
      obtain ⟨m', hm', hread'⟩ := hu.wordAt (hdims ▸ hp) hys
      have heq := (hread'.symm.trans (h p hp)).trans hread
      rw [hdims] at hm'
      rw [hm, hm']
      exact congrArg (fun s : Scalar => some s.int) (Except.ok.inj heq)
    · rw [Array.getElem?_eq_none (by omega), Array.getElem?_eq_none (by omega)]
  cases t
  cases u
  simp only at helem hdims hxs hys
  rw [helem, hdims, hxs, hys, hsame]

end Proper

/-! ## 4. Slices -/

/-- The slice is not empty and lies in the box of the dimensions. -/
inductive Within : List Int64 → List Int64 → List Int64 → Prop
  | nil : Within [] [] []
  | cons {d o z : Int64} {ds os zs : List Int64} (ho : 0 ≤ o.toInt) (hz : 0 < z.toInt)
      (hfit : o.toInt + z.toInt ≤ d.toInt) (h : Within ds os zs) :
      Within (d :: ds) (o :: os) (z :: zs)

namespace Within

variable (h : Within dims offsets sizes)
include h

theorem check : sliceInside dims offsets sizes = .ok true := by
  induction h with
  | nil => rfl
  | @cons d o z ds os zs ho hz hfit _ ih =>
    have hd := d.toInt_lt
    have hsum : (o + z).toInt = o.toInt + z.toInt := Word.toInt_add_of_fits ⟨by omega, by omega⟩
    rw [sliceInside, if_neg, ih]
    rw [Int64.lt_iff_toInt_lt, Int64.le_iff_toInt_le, Int64.lt_iff_toInt_lt, hsum, Int64.toInt_zero]
    omega

theorem positive : ∀ z ∈ sizes, 0 < z.toInt := by
  induction h with
  | nil => simp
  | cons ho hz hfit _ ih => exact forall_mem_cons.2 ⟨hz, ih⟩

theorem length_eq : offsets.length = sizes.length := by
  induction h with
  | nil => rfl
  | cons ho hz hfit _ ih => simp [ih]

theorem volume_le : volume sizes ≤ volume dims := by
  induction h with
  | nil => exact le_refl _
  | cons ho hz hfit h ih =>
    exact mul_le_mul (by omega) ih (volume_pos h.positive).le (by omega)

theorem shifted (hp : Inside sizes p) :
    Inside dims (shift offsets p) ∧ InSlice offsets sizes (shift offsets p) := by
  induction h generalizing p with
  | nil =>
    cases hp
    exact ⟨.nil, trivial⟩
  | @cons d o z ds os zs ho hz hfit _ ih =>
    cases hp with
    | @cons x _ xs _ hx hxs =>
      have hd := d.toInt_lt
      have hsum : (o + x).toInt = o.toInt + x.toInt := Word.toInt_add_of_fits ⟨by omega, by omega⟩
      simp only [shift, zipWith_cons_cons] at ih ⊢
      exact ⟨.cons (by omega) (ih hxs).1, by omega, (ih hxs).2⟩

theorem inside (hp : Inside sizes p) : Inside dims (shift offsets p) := (h.shifted hp).1

theorem exists_shift (hp : InSlice offsets sizes p) :
    ∃ q, Inside sizes q ∧ shift offsets q = p := by
  induction h generalizing p with
  | nil =>
    cases p with
    | nil => exact ⟨[], .nil, rfl⟩
    | cons x xs => exact hp.elim
  | @cons d o z ds os zs ho hz hfit _ ih =>
    cases p with
    | nil => exact hp.elim
    | cons x xs =>
      obtain ⟨hx, hxs⟩ := hp
      obtain ⟨q, hq, rfl⟩ := ih hxs
      have hsub : (x - o).toInt = x.toInt - o.toInt := by
        have := x.toInt_lt
        exact Word.toInt_sub_of_fits ⟨by omega, by omega⟩
      refine ⟨(x - o) :: q, .cons (by omega) hq, ?_⟩
      simp [shift, Int64.add_comm o]

end Within

theorem shift_inj (h : p.length = q.length) (hlen : p.length ≤ offsets.length)
    (heq : shift offsets p = shift offsets q) : p = q := by
  induction offsets generalizing p q with
  | nil =>
    obtain rfl := length_eq_zero_iff.1 (Nat.le_zero.1 hlen)
    exact (length_eq_zero_iff.1 h.symm).symm
  | cons o os ih =>
    cases p with
    | nil => exact (length_eq_zero_iff.1 h.symm).symm
    | cons x xs =>
      cases q with
      | nil => simp at h
      | cons y ys =>
        simp only [shift, zipWith_cons_cons, List.cons.injEq, Int64.add_right_inj] at heq
        rw [heq.1, ih (by simpa using h) (by simpa using hlen) heq.2]

theorem make_ofSizes (hpos : ∀ z ∈ sizes, 0 < z.toInt) :
    Shape.make e sizes = .ok (.ofSizes e sizes) := by
  have hdims : sizes.map Dim.ofWord = sizes.map .static := by
    refine map_congr_left fun z hz => if_neg ?_
    rintro rfl
    exact absurd (hpos _ hz) (by decide)
  have hall : sizes.all (fun n => decide (0 < n) || n == Dim.dynamicWord) = true := by
    refine all_eq_true.2 fun z hz => ?_
    have : 0 < z := Int64.lt_iff_toInt_lt.2 (hpos z hz)
    simp [this]
  rw [Shape.make, hdims]
  exact if_pos hall

/-- A tensor of zeros is proper, if it can be held. -/
theorem zeros_proper (hpos : ∀ z ∈ sizes, 0 < z.toInt) (hroom : volume sizes ≤ capacity.toInt) :
    ∃ out, zeros (.ofSizes e sizes) = .ok out ∧ out.Proper ∧ out.elem = e ∧ out.dims = sizes := by
  have hfits : volume sizes < 2 ^ 63 := by
    have : capacity.toInt = 35184372088832 := by decide
    omega
  have hprod := product_toInt hpos hfits
  have hvol := volume_pos hpos
  have hroom' : room (.ofSizes e sizes) = .ok (volume sizes).toNat := by
    have hbound : ¬ (Shape.product sizes < 0 ∨ capacity < Shape.product sizes) := by
      rw [Int64.lt_iff_toInt_lt, Int64.lt_iff_toInt_lt, hprod, Int64.toInt_zero]
      omega
    simp only [room, Shape.checkStatic_ofSizes, Except.mapError, bind, Except.bind,
      Shape.words_ofSizes, hbound, if_false, hprod, pure, Except.pure]
  have hzeros : zeros (.ofSizes e sizes) = .ok ⟨e, sizes, .zeros e (volume sizes).toNat⟩ := by
    simp only [zeros, hroom', Shape.words_ofSizes]
    rfl
  exact ⟨_, hzeros, (zeros_wellFormed hzeros).1.proper hpos hfits, rfl, rfl⟩

theorem walks (hvalid : t.elem ≠ .invalid) : (t.shape.ok && t.shape.isStatic) = true := by
  simp [Tensor.shape, Shape.ok, Shape.isStatic, Shape.ofSizes, Dim.isStatic, hvalid]

/-- **A slice that is read holds what moved from under it.** -/
theorem extractSlice_moves (ht : t.Proper) (hvalid : t.elem ≠ .invalid)
    (hroom : volume t.dims ≤ capacity.toInt) (h : Within t.dims offsets sizes) :
    ∃ part, t.extractSlice offsets sizes = .ok part ∧ part.Proper ∧
      part.elem = t.elem ∧ part.dims = sizes ∧ ∀ p, Inside sizes p →
      ∃ s, t.scalarAt (shift offsets p) = .ok s ∧
        part.scalarAt p = .ok (s.moved t.elem) := by
  obtain ⟨out, hout, hproper, helem, rfl⟩ :=
    zeros_proper (e := t.elem) h.positive (h.volume_le.trans hroom)
  -- After each move, the indices passed so far hold what they should.
  let I (done : List (List Int64)) (part : Tensor) : Prop := out.Refills part ∧ ∀ p ∈ done,
    ∃ s, t.scalarAt (shift offsets p) = .ok s ∧ part.scalarAt p = .ok (s.moved t.elem)
  have hrun : ∃ part, out.shape.foldIndices (readStep t offsets) out = .ok part ∧
      I (Box.points out.shape.words) part := by
    refine Shape.foldIndices_run (walks (helem ▸ hvalid)) ?_ ⟨hproper.wellFormed.refills, by simp⟩
    rintro done p rest part hsplit ⟨hrefills, hdone⟩
    have hpart := hproper.refilled hrefills
    rw [words_shape, ← hrefills.dims] at hsplit
    have hp : Inside part.dims p := Box.mem_points.1 (by simp [hsplit])
    obtain ⟨s, hs⟩ := ht.read (h.inside (hrefills.dims ▸ hp))
    obtain ⟨next, hnext, hagain, hread, hother⟩ :=
      hpart.setMoved hp (hpart.flatIndex_of_split hsplit) s
    refine ⟨next, by simp only [readStep, hs, bind, Except.bind, hnext], hrefills.trans hagain,
      fun q hq => ?_⟩
    rcases mem_append.1 hq with hq | hq
    · rw [hother q (Box.mem_points.1 (by simp [hsplit, hq])) (ne_of_split hsplit hq)]
      exact hdone q hq
    · obtain rfl := mem_singleton.1 hq
      exact ⟨s, hs, by rw [hread, hrefills.elem, helem]⟩
  obtain ⟨part, hpart, hrefills, hread⟩ := hrun
  rw [words_shape] at hread
  refine ⟨part, ?_, hproper.refilled hrefills, hrefills.elem.trans helem, hrefills.dims, fun p hp =>
    hread p (Box.mem_points.2 hp)⟩
  rw [← toOption_eq_some, toOption_extractSlice,
    toOption_eq_some.2 (checkSlice_ok (x := ()) |>.2 h.check),
    Option.bind_some, make_ofSizes h.positive, toOption_ok, Option.bind_some, hout, toOption_ok,
    Option.bind_some, hpart]
  rfl

theorem checkAxes_self (s : Shape) (wanted : List Int64) (k : Nat) (ns : List Int64) :
    Shape.checkAxes s wanted k ns ns = .ok () := by
  induction ns generalizing k with
  | nil => rfl
  | cons n ns ih => simp [Shape.checkAxes, ih]

theorem checkDims_self (t : Tensor) : t.shape.checkDims t.dims = .ok () := by
  rw [Shape.checkDims, words_shape, if_pos (by simp [Tensor.shape, Shape.ofSizes]), checkAxes_self]

/-- **A slice that is written holds what moved there, and nothing else has changed.** -/
theorem insertSlice_moves (ht : t.Proper) (hsrc : src.Proper) (hvalid : src.elem ≠ .invalid)
    (h : Within t.dims offsets src.dims) : ∃ out, src.insertSlice t offsets src.dims = .ok out ∧
    t.Refills out ∧
      (∀ p, Inside src.dims p → ∃ s, src.scalarAt p = .ok s ∧
        out.scalarAt (shift offsets p) = .ok (s.moved t.elem)) ∧
      ∀ p, Inside t.dims p → ¬ InSlice offsets src.dims p → out.scalarAt p = t.scalarAt p := by
  -- After each move, the indices passed so far are written and no others.
  let I (done : List (List Int64)) (out : Tensor) : Prop := t.Refills out ∧
    (∀ p ∈ done, ∃ s, src.scalarAt p = .ok s ∧
      out.scalarAt (shift offsets p) = .ok (s.moved t.elem)) ∧
    ∀ p, Inside t.dims p → (∀ q ∈ done, p ≠ shift offsets q) → out.scalarAt p = t.scalarAt p
  have hrun : ∃ out, src.shape.foldIndices (writeStep src offsets) t = .ok out ∧
      I (Box.points src.shape.words) out := by
    refine Shape.foldIndices_run (walks hvalid) ?_ ⟨ht.wellFormed.refills, by simp,
      fun _ _ _ => rfl⟩
    rintro done p rest out hsplit ⟨hrefills, hdone, hkept⟩
    have hout := ht.refilled hrefills
    rw [words_shape] at hsplit
    have hp : Inside src.dims p := Box.mem_points.1 (by simp [hsplit])
    have hin : Inside out.dims (shift offsets p) := hrefills.dims ▸ h.inside hp
    obtain ⟨s, hs⟩ := hsrc.read hp
    have hflat : src.flat (Int64.ofNat done.length) = .ok s := by
      rw [Tensor.scalarAt, hsrc.flatIndex_of_split hsplit] at hs
      exact hs
    obtain ⟨i, hi, -⟩ := hout.place hin
    obtain ⟨next, hnext, hagain, hread, hother⟩ := hout.setMoved hin hi s
    refine ⟨next, by simp only [writeStep, hi, hflat, bind, Except.bind, hnext],
      hrefills.trans hagain, fun q hq => ?_, fun q hq hnot => ?_⟩
    · rcases mem_append.1 hq with hq | hq
      · have hqin : Inside src.dims q := Box.mem_points.1 (by simp [hsplit, hq])
        have hne : shift offsets q ≠ shift offsets p := fun heq =>
          ne_of_split hsplit hq (shift_inj (hqin.length_eq.trans hp.length_eq.symm)
            (hqin.length_eq.trans h.length_eq.symm).le heq)
        rw [hother _ (hrefills.dims ▸ h.inside hqin) hne]
        exact hdone q hq
      · obtain rfl := mem_singleton.1 hq
        exact ⟨s, hs, by rw [hread, hrefills.elem]⟩
    · rw [hother q (hrefills.dims ▸ hq) (hnot p (by simp))]
      exact hkept q hq fun x hx => hnot x (by simp [hx])
  obtain ⟨out, hout, hrefills, hdone, hkept⟩ := hrun
  rw [words_shape] at hdone hkept
  refine ⟨out, ?_, hrefills, fun p hp => hdone p (Box.mem_points.2 hp), fun p hp hnot => ?_⟩
  · rw [← toOption_eq_some, toOption_insertSlice,
      toOption_eq_some.2 (checkSlice_ok (x := ()) |>.2 h.check), Option.bind_some, checkDims_self,
      toOption_ok, Option.bind_some, hout, toOption_ok]
  · refine hkept p hp ?_
    rintro q hq rfl
    exact hnot (h.shifted (Box.mem_points.1 hq)).2

/-- Scalars that have moved, as words. -/
theorem Proper.words (ht : t.Proper) (hf : t.elem.isFloat = false)
    (hp : Inside t.dims p) {y : Except Fault Scalar}
    (h : ∃ s, t.scalarAt p = .ok s ∧ y = .ok (s.moved t.elem)) :
    ∃ n, t.scalarAt p = .ok ⟨t.elem, 0, n⟩ ∧ y = .ok ⟨t.elem, 0, t.elem.moved n⟩ := by
  obtain ⟨s, hs, hy⟩ := h
  obtain ⟨xs, hxs⟩ := ht.ints hf
  obtain ⟨n, -, hn⟩ := ht.wordAt hp hxs
  cases hs.symm.trans hn
  exact ⟨n, hn, by simpa [Scalar.moved, hf, Scalar.toIntThroughDouble, Element.moved] using hy⟩

/-- The word at the index moves as it is. -/
def Unchanged (t : Tensor) (p : List Int64) : Prop :=
  ∀ n, t.scalarAt p = .ok ⟨t.elem, 0, n⟩ → t.elem.moved n = n

theorem unchanged_of_words (h : (t.data.words.all fun n => t.elem.moved n == n) = true)
    (p : List Int64) :
    t.Unchanged p := by
  intro n hn
  obtain ⟨i, -, hn⟩ := except_bind_eq_ok.1 hn
  unfold flat Elements.get? at hn
  split at hn
  · next s hget =>
    split at hget
    · cases hget
    · have hs := congrArg Scalar.int (Except.ok.inj hn)
      cases hd : t.data with
      | floats xs =>
        rw [hd] at hget
        obtain ⟨x, -, rfl⟩ := Option.map_eq_some_iff.1 hget
        obtain rfl : 0 = n := hs
        cases t.elem <;> decide
      | ints xs =>
        rw [hd] at hget h
        obtain ⟨m, hm, rfl⟩ := Option.map_eq_some_iff.1 hget
        obtain rfl : m = n := hs
        exact beq_iff_eq.1 (all_eq_true.1 h m (Array.mem_toList_iff.2 (Array.mem_of_getElem? hm)))
  · cases hn

/-- **Slices move elements to their places, and unchanged as long as doubles can hold them.**
`extractSlice` and `insertSlice` walk over the same indices and compute the same positions, so that
each undoes the other, and `insertSlice` writes at no position outside of the slice.  Every element
goes through a double, which is where words of 64 bits may lose bits. -/
theorem slices_move {e : Element} (he : e = .bool ∨ e.isInteger = true) (ht : t.Proper)
    (hte : t.elem = e) (hroom : volume t.dims ≤ capacity.toInt) (hsrc : src.Proper)
    (hse : src.elem = e) (h : Within t.dims offsets src.dims) :
    ∃ part out, t.extractSlice offsets src.dims = .ok part ∧
      src.insertSlice t offsets src.dims = .ok out ∧
      (part.elem = e ∧ part.dims = src.dims ∧ out.elem = e ∧ out.dims = t.dims) ∧
      (∀ p, Inside src.dims p → ∃ n m,
        t.scalarAt (shift offsets p) = .ok ⟨e, 0, n⟩ ∧ part.scalarAt p = .ok ⟨e, 0, e.moved n⟩ ∧
        src.scalarAt p = .ok ⟨e, 0, m⟩ ∧ out.scalarAt (shift offsets p) = .ok ⟨e, 0, e.moved m⟩) ∧
      (∀ p, Inside t.dims p → ¬ InSlice offsets src.dims p → out.scalarAt p = t.scalarAt p) ∧
      ((∀ p, Inside src.dims p → src.Unchanged p) → out.extractSlice offsets src.dims = .ok src) ∧
      ((∀ p, Inside src.dims p → t.Unchanged (shift offsets p)) →
        part.insertSlice t offsets src.dims = .ok t) ∧
      ∀ n, e.wrapInt n = n → (e.isNarrow = true ∨ n.toInt.natAbs ≤ 9007199254740992) →
        e.moved n = n := by
  obtain rfl := hte
  have hf : t.elem.isFloat = false := by
    rcases he with he | he
    · rw [he]
      rfl
    · revert he
      cases t.elem <;> decide
  have hvalid : t.elem ≠ .invalid := by
    rintro hinv
    simp [hinv, Element.isInteger] at he
  obtain ⟨part, hpart, hpp, hpe, hpd, hread⟩ := extractSlice_moves ht hvalid hroom h
  obtain ⟨out, hout, hrefills, hwritten, hkept⟩ := insertSlice_moves ht hsrc (hse ▸ hvalid) h
  have hop := ht.refilled hrefills
  have hoe := hrefills.elem
  have hod := hrefills.dims
  replace hread (p : List Int64) (hp : Inside src.dims p) := ht.words hf (h.inside hp) (hread p hp)
  rw [← hse] at hwritten
  replace hwritten (p : List Int64) (hp : Inside src.dims p) :=
    hsrc.words (hse ▸ hf) hp (hwritten p hp)
  rw [hse] at hwritten
  refine ⟨part, out, hpart, hout, ⟨hpe, hpd, hoe, hod⟩, fun p hp => ?_, hkept, fun hsame => ?_,
    fun hsame => ?_, fun n hn hsmall => ?_⟩
  · obtain ⟨n, hn, hn'⟩ := hread p hp
    obtain ⟨m, hm, hm'⟩ := hwritten p hp
    exact ⟨n, m, hn, hn', hm, hm'⟩
  · -- What was written is read again: it has moved twice.
    obtain ⟨back, hback, hbp, hbe, hbd, hagain⟩ :=
      extractSlice_moves hop (hoe ▸ hvalid) (hod ▸ hroom) (hod.symm ▸ h)
    rw [hback, hsrc.ext hbp (hse.symm ▸ hf) (hbe.trans (hoe.trans hse.symm)) hbd fun p hp => ?_]
    obtain ⟨m, hm, hm'⟩ := hwritten p hp
    obtain ⟨n, hn, hn'⟩ := hop.words (hoe ▸ hf) (hod ▸ h.inside hp) (hagain p hp)
    have hmoved : t.elem.moved m = m := hse ▸ hsame p hp m (hse.symm ▸ hm)
    rw [hm', hoe] at hn
    have hnm : m = n := hmoved.symm.trans (congrArg Scalar.int (Except.ok.inj hn))
    rw [hn', hm, hoe, ← hnm, hmoved]
  · obtain ⟨back, hback, hfills, hagain, hrest⟩ := insertSlice_moves ht hpp (hpe ▸ hvalid)
      (hpd.symm ▸ h)
    rw [hpd] at hback hrest
    rw [hback, ht.ext (ht.refilled hfills) hf hfills.elem hfills.dims fun p hp => ?_]
    by_cases hin : InSlice offsets src.dims p
    · obtain ⟨q, hq, rfl⟩ := h.exists_shift hin
      obtain ⟨m, hm, hm'⟩ := hpp.words (hpe ▸ hf) (hpd ▸ hq) (hpe.symm ▸ hagain q (hpd ▸ hq))
      obtain ⟨n, hn, hn'⟩ := hread q hq
      rw [hn', hpe] at hm
      have hmoved := hsame q hq n hn
      have hnm : n = m := hmoved.symm.trans (congrArg Scalar.int (Except.ok.inj hm))
      rw [hm', hn, hpe, ← hnm, hmoved]
    · exact hrest p hp hin
  · rcases hsmall with hnarrow | hsmall
    · exact Element.moved_of_narrow hnarrow hn
    · rw [Element.moved, Element.throughDouble_of_small hsmall, hn]

/-- Words of at most 53 bits. -/
def plainWords : Tensor :=
  ⟨.int64, [2, 3], .ints #[1, 9007199254740992, -9007199254740992, 4, -5, 6]⟩

/-- A corner of them. -/
def corner : Tensor := ⟨.int64, [2, 2], .ints #[7, -8, 9007199254740991, 10]⟩

theorem slices_move_corner : ∃ part out, plainWords.extractSlice [0, 1] [2, 2] = .ok part ∧
    corner.insertSlice plainWords [0, 1] [2, 2] = .ok out ∧
    out.extractSlice [0, 1] [2, 2] = .ok corner ∧
    part.insertSlice plainWords [0, 1] [2, 2] = .ok plainWords ∧
    out.scalarAt [1, 0] = .ok ⟨.int64, 0, 4⟩ := by
  have hplain : plainWords.Proper := ⟨by simp [plainWords], rfl, by decide, rfl, fun _ _ => rfl⟩
  have hcorner : corner.Proper := ⟨by simp [corner], rfl, by decide, rfl, fun _ _ => rfl⟩
  have hwithin : Within plainWords.dims [0, 1] corner.dims :=
    .cons (by decide) (by decide) (by decide) (.cons (by decide) (by decide) (by decide) .nil)
  obtain ⟨part, out, hpart, hout, -, -, hkept, hback, hagain, -⟩ :=
    slices_move (.inr rfl) hplain rfl (by decide) hcorner rfl hwithin
  refine ⟨part, out, hpart, hout, hback fun p _ => ?_, hagain fun p _ => ?_, ?_⟩
  · exact unchanged_of_words (by decide +kernel) p
  · exact unchanged_of_words (by decide +kernel) _
  · refine (hkept [1, 0] (.cons (by decide) (.cons (by decide) .nil)) ?_).trans rfl
    exact fun h => absurd h.2.1.1 (by decide)

/-- Words of 54 bits, one of them in the slice. -/
def wideWords : Tensor :=
  ⟨.int64, [2, 3], .ints #[1, -9007199254740992, 9007199254740993, 4, -5, 6]⟩

theorem extractSlice_loses_bits :
    wideWords.scalarAt (shift [0, 1] [0, 1]) = .ok ⟨.int64, 0, 9007199254740993⟩ ∧
      wideWords.extractSlice [0, 1] [1, 2] =
        .ok ⟨.int64, [1, 2], .ints #[-9007199254740992, 9007199254740992]⟩ := by
  constructor
  · rfl
  · rfl

end Tensor

end ConvNest
