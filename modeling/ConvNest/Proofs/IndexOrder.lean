/-
# Indices in order

The indices of a shape are visited by an odometer, which carries from the last axis to the first
one.  It comes to an end by itself, after all points of the box (`Box.visits_points`).

The points come in lexicographic order.  The place of a point in it, its flat position, and the sum
of its indices times the strides of their axes are the same number (`Shape.indices_rowMajor`).
-/
import ConvNest.Proofs.SliceElements

namespace ConvNest

open List

/-! ## 1. The odometer -/

namespace Box

variable {sides ns p q : List Int64} {n i : Int64} {ps qs : List (List Int64)}

/-- From a point on the odometer visits some points, and comes to its end at the last of them. -/
inductive Visits (sides : List Int64) : List Int64 → List (List Int64) → Prop
  | last {p : List Int64} : successor sides p = none → Visits sides p [p]
  | next {p q : List Int64} {ps : List (List Int64)} :
    successor sides p = some q → Visits sides q ps → Visits sides p (p :: ps)

/-- A list of points that is long enough is not cut short. -/
theorem Visits.pointsFrom (h : Visits sides p ps) {count : Nat} (hcount : ps.length ≤ count) :
    pointsFrom sides count p = ps := by
  induction h generalizing count with
  | last hp =>
    obtain ⟨count, rfl⟩ := Nat.exists_eq_add_of_le' hcount
    simp [Box.pointsFrom, hp]
  | next hp _ ih =>
    obtain ⟨count, rfl⟩ := Nat.exists_eq_add_of_le' (Nat.le_trans (Nat.le_add_left 1 _) hcount)
    simp only [Box.pointsFrom, hp, ih (Nat.le_of_succ_le_succ hcount)]

/-- A row of the box: after its last point comes the first one of the next row, if there is one. -/
theorem Visits.row (h : Visits ns p ps)
    (hnext : i + 1 < n → Visits (n :: ns) ((i + 1) :: origin ns) qs)
    (hlast : ¬ i + 1 < n → qs = []) : Visits (n :: ns) (i :: p) (ps.map (i :: ·) ++ qs) := by
  induction h with
  | last hp =>
    by_cases hi : i + 1 < n
    · exact .next (by simp [successor, hp, hi]) (hnext hi)
    · rw [hlast hi]
      exact .last (by simp [successor, hp, hi])
  | next hp _ ih => exact .next (by simp [successor, hp]) ih

/-- **The odometer visits all points of a box and ends.** -/
theorem visits_points (h : ∀ n ∈ sides, 0 < n.toInt) :
    Visits sides (origin sides) (points sides) := by
  induction sides with
  | nil => exact .last rfl
  | cons n ns ih =>
    have ih := ih fun d hd => h d (mem_cons_of_mem n hd)
    have hn := n.toInt_lt
    -- all rows from the `k`-th on
    have rows (m k : Nat) (hk : k + (m + 1) = n.toInt.toNat) : Visits (n :: ns)
      (Int64.ofNat k :: origin ns)
        (((range' k (m + 1)).map Int64.ofNat).flatMap fun i => (points ns).map (i :: ·)) := by
      have hsucc : Int64.ofNat k + 1 = Int64.ofNat (k + 1) := (Int64.ofNat_add k 1).symm
      have hlt : Int64.ofNat (k + 1) < n ↔ 0 < m := by
        rw [Int64.lt_iff_toInt_lt, Int64.toInt_ofNat_of_lt (by omega)]
        omega
      induction m generalizing k with
      | zero => exact ih.row (fun hi => absurd (hlt.1 (hsucc ▸ hi)) (by omega)) fun _ => rfl
      | succ m ihm =>
        refine ih.row (fun _ => ?_) fun hi => absurd (hlt.2 m.succ_pos) (hsucc ▸ hi)
        rw [hsucc]
        refine ihm (k + 1) (by omega) (Int64.ofNat_add (k + 1) 1).symm ?_
        rw [Int64.lt_iff_toInt_lt, Int64.toInt_ofNat_of_lt (by omega)]
        omega
    have hpos := h n mem_cons_self
    have := rows (n.toInt.toNat - 1) 0 (by omega)
    rw [show n.toInt.toNat - 1 + 1 = n.toInt.toNat by omega, ← range_eq_range'] at this
    exact this

theorem length_points (sides : List Int64) : (points sides).length = volume sides := by
  rw [volume, ← prod_eq_foldl]
  induction sides with
  | nil => rfl
  | cons n ns ih => simp [points, ih, Word.range, Function.comp_def]

/-- Points come in lexicographic order. -/
theorem sorted_points (sides : List Int64) : (points sides).Pairwise (· < ·) := by
  induction sides with
  | nil => simp [points]
  | cons n ns ih =>
    rw [points, pairwise_flatMap]
    refine ⟨fun i _ => pairwise_map.2 (ih.imp .cons), ?_⟩
    have hn := n.toInt_lt
    refine pairwise_map.2 (pairwise_lt_range.imp_of_mem fun {a b} ha hb hab => ?_)
    rw [List.mem_range] at ha hb
    simp only [mem_map]
    rintro _ ⟨p, -, rfl⟩ _ ⟨q, -, rfl⟩
    refine .rel (Int64.lt_iff_toInt_lt.2 ?_)
    rw [Int64.toInt_ofNat_of_lt (by omega), Int64.toInt_ofNat_of_lt (by omega)]
    omega

end Box

/-! ## 2. Positions -/

namespace Tensor

variable {dims p : List Int64} {t : Tensor}

/-- Strides are the volumes of the axes behind, and a position is the sum of the indices times the
strides. -/
theorem stridesOf_rowMajor (h : ∀ d ∈ dims, 0 < d.toInt) (hfits : volume dims < 2 ^ 63) :
    (Shape.stridesOf dims).2.toInt = volume dims ∧ ∀ p, Inside dims p →
      (zipWith (fun i d : Int64 => i.toInt * d.toInt) p (Shape.stridesOf dims).1).sum =
        rowMajor dims p := by
  induction dims with
  | nil => exact ⟨rfl, fun p hp => by cases hp; rfl⟩
  | cons d ds ih =>
    have hds : ∀ x ∈ ds, 0 < x.toInt := fun x hx => h x (mem_cons_of_mem d hx)
    have hd := h d mem_cons_self
    have hvol := volume_pos hds
    rw [volume_cons] at hfits ⊢
    obtain ⟨htotal, hsum⟩ := ih hds ((le_mul_of_one_le_left hvol.le hd).trans_lt hfits)
    have hpos := mul_pos hd hvol
    refine ⟨?_, fun p hp => ?_⟩
    · rw [mul_comm] at hfits hpos ⊢
      rw [Shape.stridesOf,
        Word.toInt_mul_of_fits ⟨by rw [htotal]; omega, by rw [htotal]; exact hfits⟩, htotal]
    · cases hp with
      | cons hx hxs => simp [Shape.stridesOf, rowMajor, htotal, hsum _ hxs]

theorem flatIndex_outside (hp : ¬ Inside t.dims p) : ∃ why, t.flatIndex p = .error why := by
  rw [flatIndex]
  split
  · exact ⟨_, rfl⟩
  split
  · next i hi => exact absurd (position_inside hi) hp
  · exact ⟨_, rfl⟩

end Tensor

/-! ## 3. Shapes -/

namespace Shape

variable {β : Type} {s : Shape}

theorem words_of_make {e : Element} {ns : List Int64} (h : Shape.make e ns = .ok s)
    (hstatic : s.isStatic = true) :
    ∀ d ∈ s.words, 0 < d.toInt := by
  rw [Shape.make] at h
  split at h
  · next hall =>
    cases h
    intro d hd
    simp only [words, map_map, mem_map, Function.comp_apply, Dim.toWord_ofWord, exists_eq_right]
      at hd
    have hdim := all_eq_true.1 hstatic _ (mem_map_of_mem hd)
    have hword := all_eq_true.1 hall d hd
    have hne : d ≠ Dim.dynamicWord := by
      rintro rfl
      cases hdim
    exact Word.toInt_pos (by simpa [hne] using hword)
  · cases h

/-- **The indices of a shape are all its indices in order, and the place of an index is its
position.**  A step of the odometer goes from an index to the next one in lexicographic order, and
adds one to the flat position: an axis that carries falls back from its last index to zero, which is
just what the step of the axis before it adds, less one.  Both start at zero, so position and place
agree all along. -/
theorem indices_rowMajor {e : Element} {ns : List Int64} (hs : Shape.make e ns = .ok s)
    (hok : s.ok = true) (hstatic : s.isStatic = true)
    (hfits : Tensor.volume s.words < 2 ^ 63) {t : Tensor} (ht : t.shape = s) :
    Box.Visits s.words (Box.origin s.words) (s.indices none) ∧ (s.indices none).Pairwise (· < ·) ∧
    (∀ p, p ∈ s.indices none ↔ Tensor.Inside s.words p) ∧
    (∃ size strides, s.size = .ok size ∧ s.strides = .ok strides ∧
      (s.indices none).length = size.toInt ∧
      (∀ k p, (s.indices none)[k]? = some p → t.flatIndex p = .ok (Int64.ofNat k) ∧
        (Int64.ofNat k).toInt = k ∧
        (zipWith (fun i d : Int64 => i.toInt * d.toInt) p strides).sum = k) ∧
      ∀ j : Int64, 0 ≤ j.toInt → j.toInt < size.toInt → ∃! p, Tensor.Inside s.words p ∧
        t.flatIndex p = .ok j) ∧
    (∀ p, ¬ Tensor.Inside s.words p → ∃ why, t.flatIndex p = .error why) ∧
    ∀ (f : β → Int64 → List Int64 → Except Fault β) (b : β),
      s.foldIndices f b =
        (s.indices none).zipIdx.foldlM (fun b x => f b (Int64.ofNat x.2) x.1) b := by
  have hpos := words_of_make hs hstatic
  have hnonneg : ∀ d ∈ s.words, 0 ≤ d.toInt := fun d hd => (hpos d hd).le
  have hwalk : (s.ok && s.isStatic) = true := by simp [hok, hstatic]
  have hdims : t.dims = s.words := ht ▸ (Shape.words_ofSizes _ _).symm
  have hvisits := Box.visits_points hpos
  have hindices : s.indices none = Box.points s.words := by
    rw [indices, if_pos hwalk]
    exact hvisits.pointsFrom (Box.length_points _).le
  have hlength := congrArg length (Tensor.rowMajor_points hnonneg)
  have hflat {p : List Int64} (hp : Tensor.Inside s.words p) {j : Int64} :
      t.flatIndex p = .ok j ↔ Tensor.rowMajor s.words p = j.toInt := by
    obtain ⟨hi, hword⟩ := Tensor.flatIndex_inside (t := t) (hdims ▸ hfits) (hdims ▸ hp)
    rw [hi, Except.ok.injEq, ← Int64.toInt_inj, hword, hdims]
  obtain ⟨-, hsum⟩ := Tensor.stridesOf_rowMajor hpos hfits
  rw [hindices]
  have houtside (p : List Int64) (hp : ¬ Tensor.Inside s.words p) :
      ∃ why, t.flatIndex p = .error why := Tensor.flatIndex_outside (hdims ▸ hp)
  refine ⟨hvisits, Box.sorted_points _, fun p => Box.mem_points,
    ⟨_, _, if_pos hstatic, if_pos hstatic, ?_, ?_, ?_⟩, houtside, fun f b => ?_⟩
  · rw [Tensor.product_toInt hpos hfits]
    rw [length_map, length_range] at hlength
    have := Tensor.volume_nonneg hnonneg
    omega
  · intro k p hk
    have hp : Tensor.Inside s.words p := Box.mem_points.1 (mem_of_getElem? hk)
    have hrow := congrArg (·[k]?) (Tensor.rowMajor_points hnonneg)
    simp only [getElem?_map, hk, Option.map_some] at hrow
    obtain ⟨hlt, heq⟩ := List.getElem?_eq_some_iff.1 hrow.symm
    rw [getElem_range] at heq
    have hbounds := Tensor.rowMajor_bounds hp
    have hword : (Int64.ofNat k).toInt = k := Int64.toInt_ofNat_of_lt (by omega)
    exact ⟨(hflat hp).2 (by omega), hword, by rw [hsum p hp]; omega⟩
  · intro j hj hlt
    rw [Tensor.product_toInt hpos hfits] at hlt
    obtain ⟨p, hp, hrow⟩ := Tensor.exists_rowMajor hnonneg (j := j.toInt.toNat) (by omega)
    have hbounds := Tensor.rowMajor_bounds hp
    refine ⟨p, ⟨hp, (hflat hp).2 (by omega)⟩, ?_⟩
    rintro q ⟨hq, hqj⟩
    rw [hflat hq] at hqj
    exact Tensor.rowMajor_inj hq hp (by omega)
  · rw [foldIndices_eq, if_pos hwalk]

/-- Six indices of two axes. -/
theorem indices_rowMajor_pairs :
    (⟨.int32, [2, 3], .ints #[1, 2, 3, 4, 5, 6]⟩ : Tensor).flatIndex [1, 0] = .ok 3 := by
  obtain ⟨-, -, -, ⟨_, _, -, -, -, hflat, -⟩, -⟩ := indices_rowMajor (β := Unit)
    (show make .int32 [2, 3] = .ok (.ofSizes .int32 [2, 3]) from rfl) rfl rfl (by decide)
    (t := ⟨.int32, [2, 3], .ints #[1, 2, 3, 4, 5, 6]⟩) rfl
  exact (hflat 3 [1, 0] (by decide +kernel)).1

end Shape

end ConvNest
