/-
# Points of a box, and their positions

The points of a box are the lists of words with one word below each side, each point once
(`Box.mem_points`, `Box.nodup_points`).

A tensor finds an element by the row-major position of its index, a word that may wrap around.  As
long as the product of the dimensions is itself a word, nothing wraps around, and different indices
have different positions (`Tensor.position_inj`).
-/
import ConvNest.Proofs.WordArith
import ConvNest.Tensor.Basic
import Mathlib.Algebra.BigOperators.Group.List.Basic
import Mathlib.Data.List.Nodup
import Mathlib.Tactic.Ring

namespace ConvNest

open List

/-! ## 1. Words -/

namespace Word

variable {a b n i : Int64}

/-- A sum of words that are not negative has wrapped around if it is negative, and only then. -/
theorem toInt_add_of_nonneg (ha : 0 ≤ a.toInt) (hb : 0 ≤ b.toInt) (h : 0 ≤ (a + b).toInt) :
    (a + b).toInt = a.toInt + b.toInt := by
  have := a.toInt_lt
  have := b.toInt_lt
  rw [Int64.toInt_add, Int.bmod_def] at h ⊢
  omega

theorem not_lt_zero_iff : ¬ a < 0 ↔ 0 ≤ a.toInt := by
  rw [Int64.lt_iff_toInt_lt]
  exact not_lt

theorem mem_range : i ∈ range n ↔ 0 ≤ i.toInt ∧ i.toInt < n.toInt := by
  have hn := n.toInt_lt
  simp only [range, List.mem_map, List.mem_range]
  constructor
  · rintro ⟨k, hk, rfl⟩
    rw [Int64.toInt_ofNat_of_lt (by omega)]
    omega
  · rintro ⟨h0, hlt⟩
    refine ⟨i.toInt.toNat, by omega, ?_⟩
    rw [← Int64.toInt_inj, Int64.toInt_ofNat_of_lt (by omega)]
    omega

theorem nodup_range (n : Int64) : (range n).Nodup := by
  have hn := n.toInt_lt
  refine List.nodup_range.map_on fun x hx y hy h => ?_
  rw [List.mem_range] at hx hy
  have := congrArg Int64.toInt h
  rw [Int64.toInt_ofNat_of_lt (by omega), Int64.toInt_ofNat_of_lt (by omega)] at this
  omega

end Word

/-! ## 2. Points -/

namespace Box

variable {sides p : List Int64}

theorem mem_points : p ∈ points sides ↔
    List.Forall₂ (fun x n : Int64 => 0 ≤ x.toInt ∧ x.toInt < n.toInt) p sides := by
  induction sides generalizing p with
  | nil => simp [points]
  | cons n ns ih =>
    simp only [points, mem_flatMap, mem_map, ih, Word.mem_range]
    constructor
    · rintro ⟨i, hi, q, hq, rfl⟩
      exact .cons hi hq
    · intro h
      cases h with
      | cons hi hq => exact ⟨_, hi, _, hq, rfl⟩

theorem nodup_points (sides : List Int64) : (points sides).Nodup := by
  induction sides with
  | nil => simp [points]
  | cons n ns ih =>
    rw [points, nodup_flatMap]
    refine ⟨fun i _ => ih.map fun _ _ h => (List.cons.inj h).2, ?_⟩
    refine (Word.nodup_range n).imp fun {i j} hij => ?_
    intro q hi hj
    obtain ⟨p, -, rfl⟩ := mem_map.1 hi
    obtain ⟨p', -, heq⟩ := mem_map.1 hj
    exact hij (List.cons.inj heq).1.symm

end Box

/-! ## 3. Positions -/

namespace Tensor

/-- The number of elements that dimensions ask for, as a number. -/
def volume (dims : List Int64) : Int := (dims.map Int64.toInt).prod

/-- The row-major position of an index, as a number. -/
def rowMajor : List Int64 → List Int64 → Int
  | _ :: ds, i :: is => i.toInt * volume ds + rowMajor ds is
  | _, _ => 0

/-- The index lies in the box of the dimensions. -/
abbrev Inside (dims p : List Int64) : Prop :=
  List.Forall₂ (fun x n : Int64 => 0 ≤ x.toInt ∧ x.toInt < n.toInt) p dims

section Positions

variable {dims p q : List Int64} {acc i : Int64}

theorem volume_cons (d : Int64) (ds : List Int64) : volume (d :: ds) = d.toInt * volume ds := by
  simp [volume]

theorem rowMajor_bounds (h : Inside dims p) :
    0 ≤ rowMajor dims p ∧ rowMajor dims p < volume dims := by
  induction h with
  | nil => simp [rowMajor, volume]
  | @cons x n xs ns hx _ ih =>
    constructor
    · exact add_nonneg (mul_nonneg hx.1 (by omega)) ih.1
    · calc x.toInt * volume ns + rowMajor ns xs < x.toInt * volume ns + volume ns := by omega
        _ = (x.toInt + 1) * volume ns := by ring
        _ ≤ n.toInt * volume ns := mul_le_mul_of_nonneg_right (by omega) (by omega)

theorem rowMajor_inj (hp : Inside dims p) (hq : Inside dims q)
    (h : rowMajor dims p = rowMajor dims q) : p = q := by
  induction hp generalizing q with
  | nil =>
    cases hq
    rfl
  | @cons x n xs ns hx hxs ih =>
    cases hq with
    | @cons y _ ys _ hy hys =>
      have hbx := rowMajor_bounds hxs
      have hby := rowMajor_bounds hys
      simp only [rowMajor] at h
      have hxy : x.toInt = y.toInt := by
        by_contra hne
        rcases lt_or_gt_of_ne hne with hlt | hlt
        · have := mul_le_mul_of_nonneg_right (show x.toInt + 1 ≤ y.toInt by omega)
            (show 0 ≤ volume ns by omega)
          rw [add_mul, one_mul] at this
          omega
        · have := mul_le_mul_of_nonneg_right (show y.toInt + 1 ≤ x.toInt by omega)
            (show 0 ≤ volume ns by omega)
          rw [add_mul, one_mul] at this
          omega
      rw [hxy] at h
      rw [Int64.toInt_inj.1 hxy, ih hys (by omega)]

theorem position_inside (h : position dims p acc = some i) : Inside dims p := by
  induction dims generalizing p acc with
  | nil =>
    cases p with
    | nil => exact .nil
    | cons x xs => simp [position] at h
  | cons d ds ih =>
    cases p with
    | nil => simp [position] at h
    | cons x xs =>
      simp only [position] at h
      split at h
      · cases h
      · next hx =>
        rw [not_or, Word.not_lt_zero_iff, Int64.le_iff_toInt_le, not_le] at hx
        exact .cons hx (ih h)

theorem position_isSome (h : Inside dims p) (acc : Int64) : ∃ i, position dims p acc = some i := by
  induction h generalizing acc with
  | nil => exact ⟨acc, rfl⟩
  | @cons x n xs ns hx _ ih =>
    have : ¬ (x < 0 ∨ n ≤ x) := by
      rw [not_or, Word.not_lt_zero_iff, Int64.le_iff_toInt_le, not_le]
      exact hx
    rw [position, if_neg this]
    exact ih _

/-- As long as the volume is a word, positions do not wrap around. -/
theorem position_toInt (hacc : 0 ≤ acc.toInt) (hfits : (acc.toInt + 1) * volume dims ≤ 2 ^ 63)
    (h : position dims p acc = some i) : i.toInt = acc.toInt * volume dims + rowMajor dims p := by
  induction dims generalizing p acc with
  | nil =>
    cases p with
    | nil =>
      cases h
      simp [rowMajor, volume]
    | cons x xs => simp [position] at h
  | cons d ds ih =>
    cases p with
    | nil => simp [position] at h
    | cons x xs =>
      obtain ⟨hx, hxs⟩ := forall₂_cons.1 (position_inside h)
      have hvol := rowMajor_bounds hxs
      have hd : (acc.toInt * d.toInt + x.toInt + 1) ≤ (acc.toInt + 1) * d.toInt := by
        rw [add_mul, one_mul]
        omega
      have hle : (acc.toInt * d.toInt + x.toInt + 1) * volume ds ≤ 2 ^ 63 := by
        rw [volume_cons, ← mul_assoc] at hfits
        exact (mul_le_mul_of_nonneg_right hd (by omega)).trans hfits
      have hnonneg : 0 ≤ acc.toInt * d.toInt := mul_nonneg hacc (by omega)
      have hword : acc.toInt * d.toInt + x.toInt + 1 ≤ 2 ^ 63 :=
        (le_mul_of_one_le_right (by omega) (by omega)).trans hle
      have hmul : (acc * d).toInt = acc.toInt * d.toInt :=
        Word.toInt_mul_of_fits ⟨by omega, by omega⟩
      have hnext : (acc * d + x).toInt = acc.toInt * d.toInt + x.toInt := by
        rw [Word.toInt_add_of_fits ⟨by omega, by omega⟩, hmul]
      simp only [position] at h
      split at h
      · cases h
      · rw [ih (by omega) (by rw [hnext]; exact hle) h, hnext, rowMajor, volume_cons]
        ring

theorem position_toInt_zero (hfits : volume dims ≤ 2 ^ 63) (h : position dims p 0 = some i) :
    i.toInt = rowMajor dims p := by
  have hzero : ((0 : Int64).toInt + 1) * volume dims ≤ 2 ^ 63 := by simpa using hfits
  simpa using position_toInt (by decide) hzero h

/-- **Different indices have different positions.** -/
theorem position_inj (hfits : volume dims ≤ 2 ^ 63) (hp : position dims p 0 = some i)
    (hq : position dims q 0 = some i) : p = q :=
  rowMajor_inj (position_inside hp) (position_inside hq)
    ((position_toInt_zero hfits hp).symm.trans (position_toInt_zero hfits hq))

/-- The position of an index in the box. -/
theorem flatIndex_inside {t : Tensor} (hfits : volume t.dims < 2 ^ 63) (hp : Inside t.dims p) :
    t.flatIndex p = .ok (Int64.ofNat (rowMajor t.dims p).toNat) ∧
      (Int64.ofNat (rowMajor t.dims p).toNat).toInt = rowMajor t.dims p := by
  obtain ⟨i, hi⟩ := position_isSome hp 0
  have hbounds := rowMajor_bounds hp
  have hword : (Int64.ofNat (rowMajor t.dims p).toNat).toInt = rowMajor t.dims p := by
    rw [Int64.toInt_ofNat_of_lt (by omega)]
    omega
  rw [flatIndex, if_neg (by simp [hp.length_eq]), hi,
    Int64.toInt_inj.1 ((position_toInt_zero hfits.le hi).trans hword.symm)]
  exact ⟨rfl, hword⟩

end Positions

end Tensor

end ConvNest
