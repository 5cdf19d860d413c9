/-
# Permutations and what undoes them

A list is accepted as a permutation of `n` items if it has each of the words `0, ..., n - 1` once
(`check_eq_ok`): with the right length, entries that are in range and differ leave none out.

The list that `inverse` fills has at every entry of the permutation the position of that entry
(`inverse_undoes`).  Since a permutation has every word of the range, this determines the inverse,
and it goes both ways (`Undoes.symm`).
-/
import ConvNest.Permutation
import ConvNest.Proofs.Outcome
import ConvNest.Proofs.Points

namespace ConvNest.Permutation

open List

variable {perm inv seen rest : List Int64} {n : Int64}

/-! ## 1. What is accepted -/

/-- The list has as many items as asked for, and they are the words `0, ..., n - 1`, each once. -/
def Orders (perm : List Int64) (n : Int64) : Prop :=
  (perm.length : Int) = n.toInt ∧ perm ~ Word.range n

theorem checkEntries_eq_ok : checkEntries perm n seen rest = .ok () ↔
    rest.Nodup ∧ ∀ i ∈ rest, i ∈ Word.range n ∧ i ∉ seen := by
  induction rest generalizing seen with
  | nil => simp [checkEntries]
  | cons i rest ih =>
    have hrange : i ∈ Word.range n ↔ ¬ (i < 0 ∨ n ≤ i) := by
      rw [Word.mem_range, not_or, Word.not_lt_zero_iff, Int64.le_iff_toInt_le, not_le]
    rw [checkEntries, nodup_cons, forall_mem_cons, hrange]
    split
    · next hout => simp [hout]
    · next hin =>
      split
      · next hseen => simp [contains_iff_mem.1 hseen]
      · next hseen =>
        grind

/-- **The check accepts exactly the permutations.** -/
theorem check_eq_ok : check perm n = .ok () ↔ Orders perm n := by
  have hcount : (Word.range n).length = n.toInt.toNat := by simp [Word.range]
  have hword := n.toInt_lt
  unfold check Orders
  split
  · next hlen =>
    rw [checkEntries_eq_ok]
    constructor
    · rintro ⟨hnodup, hall⟩
      have hsub := subperm_of_subset hnodup fun i hi => (hall i hi).1
      have hle := hsub.length_le
      have hlength : (perm.length : Int) = n.toInt := by
        rw [← hlen, Word.length, Int64.toInt_ofNat_of_lt (by omega)]
      exact ⟨hlength, hsub.perm_of_length_le (by omega)⟩
    · rintro ⟨-, hperm⟩
      exact ⟨hperm.nodup_iff.2 (Word.nodup_range n), fun i hi => ⟨hperm.mem_iff.1 hi, not_mem_nil⟩⟩
  · next hlen =>
    refine ⟨fun h => (by cases h), fun h => absurd (Int64.toInt_inj.1 ?_) hlen⟩
    rw [Word.length, Int64.toInt_ofNat_of_lt (by omega), h.1]

theorem Orders.mem (h : Orders perm n) {k : Nat} (hk : k < perm.length) : Int64.ofNat k ∈ perm := by
  have := n.toInt_lt
  have hlen := h.1
  rw [h.2.mem_iff, Word.mem_range, Int64.toInt_ofNat_of_lt (by omega)]
  omega

/-- A list of the right length that has every word of the range has each once. -/
theorem orders_of_mem (hlen : (perm.length : Int) = n.toInt)
    (h : ∀ k < perm.length, Int64.ofNat k ∈ perm) : Orders perm n := by
  refine ⟨hlen, ((subperm_of_subset (Word.nodup_range n) fun i hi => ?_).perm_of_length_le ?_).symm⟩
  · obtain ⟨k, hk, rfl⟩ := mem_map.1 hi
    exact h k (by rw [mem_range] at hk; omega)
  · simp only [Word.range, length_map, length_range]
    omega

/-! ## 2. Inverses -/

/-- The second list has at every entry of the first one the position of that entry. -/
def Undoes (perm inv : List Int64) : Prop :=
  inv.length = perm.length ∧ ∀ k < perm.length, ∃ i < perm.length,
    perm[k]? = some (Int64.ofNat i) ∧ inv[i]? = some (Int64.ofNat k)

/-- Filling stores the position of every entry, and leaves the rest as it is. -/
theorem invertFrom_eq_ok (k : Nat) (inv : List Int64) (hword : inv.length < 2 ^ 63)
    (hnodup : rest.Nodup) (hrange : ∀ i ∈ rest, 0 ≤ i.toInt ∧ i.toInt < inv.length) :
    ∃ out, invertFrom k rest inv = .ok out ∧ out.length = inv.length ∧
      (∀ j i, rest[j]? = some i → out[i.toInt.toNat]? = some (Int64.ofNat (k + j))) ∧
      ∀ m, (∀ i ∈ rest, i.toInt.toNat ≠ m) → out[m]? = inv[m]? := by
  induction rest generalizing k inv with
  | nil => exact ⟨inv, rfl, rfl, by simp, fun _ _ => rfl⟩
  | cons i rest ih =>
    rw [nodup_cons] at hnodup
    rw [forall_mem_cons] at hrange
    have hin : 0 ≤ i ∧ i < Word.length inv := by
      rw [Int64.le_iff_toInt_le, Int64.lt_iff_toInt_lt, Word.length, Int64.toInt_ofNat_of_lt hword]
      exact hrange.1
    have hlen : (inv.set i.toInt.toNat (Int64.ofNat k)).length = inv.length := length_set
    obtain ⟨out, hout, hlength, hstored, hkept⟩ :=
      ih (k + 1) _ (hlen.symm ▸ hword) hnodup.2 (hlen.symm ▸ hrange.2)
    refine ⟨out, by rw [invertFrom, if_pos hin, hout], hlength.trans hlen, fun j x hx => ?_,
      fun m hm => ?_⟩
    · cases j with
      | zero =>
        cases hx
        rw [hkept, getElem?_set_self (by omega)]
        · rfl
        · intro x hx heq
          have hxi : x = i := by
            rw [← Int64.toInt_inj]
            have := hrange.2 x hx
            omega
          exact hnodup.1 (hxi ▸ hx)
      | succ j => rw [hstored j x hx, Nat.add_right_comm, Nat.add_assoc]
    · rw [forall_mem_cons] at hm
      rw [hkept m hm.2, getElem?_set_ne hm.1]

/-- **A permutation has an inverse.** -/
theorem inverse_undoes (h : Orders perm n) : ∃ inv, inverse perm = .ok inv ∧ Undoes perm inv := by
  have hword := n.toInt_lt
  have hlen := h.1
  have hrange (i : Int64) (hi : i ∈ perm) : 0 ≤ i.toInt ∧ i.toInt < perm.length := by
    rw [hlen]
    exact Word.mem_range.1 (h.2.mem_iff.1 hi)
  obtain ⟨inv, hinv, hlength, hstored, -⟩ := invertFrom_eq_ok 0 (perm.map fun _ => 0)
    (by rw [length_map]; omega) (h.2.nodup_iff.2 (Word.nodup_range n)) (by rwa [length_map])
  rw [length_map] at hlength
  refine ⟨inv, hinv, hlength, fun k hk => ?_⟩
  have hbounds := hrange _ (getElem_mem hk)
  refine ⟨perm[k].toInt.toNat, by omega, ?_, ?_⟩
  · rw [getElem?_eq_getElem hk, Option.some_inj, ← Int64.toInt_inj,
      Int64.toInt_ofNat_of_lt (by omega)]
    omega
  · rw [hstored k _ (getElem?_eq_getElem hk), Nat.zero_add]

/-- The numbers of words of a permutation are told apart. -/
theorem Orders.ofNat_inj (h : Orders perm n) {i j : Nat} (hi : i < perm.length)
    (hj : j < perm.length) (heq : Int64.ofNat i = Int64.ofNat j) : i = j := by
  have hword := n.toInt_lt
  have hlen := h.1
  have := congrArg Int64.toInt heq
  rw [Int64.toInt_ofNat_of_lt (by omega), Int64.toInt_ofNat_of_lt (by omega)] at this
  omega

/-- What undoes a permutation is undone by it. -/
theorem Undoes.symm (hundo : Undoes perm inv) (h : Orders perm n) : Undoes inv perm := by
  refine ⟨hundo.1.symm, fun i hi => ?_⟩
  rw [hundo.1] at hi ⊢
  obtain ⟨k, hk⟩ := mem_iff_getElem?.1 (h.mem hi)
  obtain ⟨hklt, -⟩ := List.getElem?_eq_some_iff.1 hk
  obtain ⟨j, hj, hat, hinv⟩ := hundo.2 k hklt
  obtain rfl := h.ofNat_inj hi hj (Option.some.inj (hk.symm.trans hat))
  exact ⟨k, hklt, hinv, hat⟩

theorem Undoes.orders (hundo : Undoes perm inv) (h : Orders perm n) : Orders inv n := by
  refine orders_of_mem (hundo.1 ▸ h.1) fun k hk => ?_
  obtain ⟨i, -, -, hinv⟩ := hundo.2 k (hundo.1 ▸ hk)
  exact mem_of_getElem? hinv

theorem Undoes.unique {inv' : List Int64} (hundo : Undoes perm inv) (h : Orders perm n)
    (hundo' : Undoes perm inv') : inv = inv' := by
  refine ext_getElem? fun i => ?_
  by_cases hi : i < perm.length
  · obtain ⟨k, hk, hinv, hat⟩ := (hundo.symm h).2 i (hundo.1.symm ▸ hi)
    rw [hundo.1] at hk
    obtain ⟨j, hj, hat', hinv'⟩ := hundo'.2 k hk
    obtain rfl := h.ofNat_inj hi hj (Option.some.inj (hat.symm.trans hat'))
    exact hinv.trans hinv'.symm
  · rw [getElem?_eq_none (by rw [hundo.1]; omega), getElem?_eq_none (by rw [hundo'.1]; omega)]

/-! ## 3. Reordering -/

section Reordering

variable {α : Type} {xs ys : List α}

/-- Reordering gives the item at every entry. -/
theorem permute_eq_ok (h : Orders perm n) (hlen : xs.length = perm.length) :
    ∃ ys, permute xs perm = .ok ys ∧ ys.length = perm.length ∧
      ∀ k i : Nat, i < perm.length → perm[k]? = some (Int64.ofNat i) → ys[k]? = xs[i]? := by
  have hword := n.toInt_lt
  have hcount := h.1
  have hat {i : Nat} (hi : i < perm.length) : Word.at? xs (Int64.ofNat i) = xs[i]? := by
    have hi' : (Int64.ofNat i).toInt = i := Int64.toInt_ofNat_of_lt (by omega)
    rw [Word.at?, if_neg (by rw [Word.not_lt_zero_iff]; omega), hi', Int.toNat_natCast]
  obtain ⟨ys, hys⟩ : ∃ ys, permute xs perm = .ok ys := by
    refine except_mapM_total fun i hi => ?_
    obtain ⟨k, hk, rfl⟩ := mem_map.1 (h.2.mem_iff.1 hi)
    rw [mem_range] at hk
    rw [hat (by omega), getElem?_eq_getElem (by omega)]
    exact ⟨_, rfl⟩
  have hall := except_mapM_eq_ok.1 hys
  refine ⟨ys, hys, hall.length_eq.symm, fun k i hi hk => ?_⟩
  obtain ⟨hklt, hki⟩ := List.getElem?_eq_some_iff.1 hk
  have hy := hall.get hklt (hall.length_eq ▸ hklt)
  simp only [get_eq_getElem] at hy
  rw [hki, hat hi, getElem?_eq_getElem (by omega)] at hy
  rw [getElem?_eq_getElem (hall.length_eq ▸ hklt), getElem?_eq_getElem (by omega),
    ← Except.ok.inj hy]

/-- Reordering by a permutation and then by what undoes it changes nothing. -/
theorem permute_permute (h : Orders perm n) (hundo : Undoes perm inv)
    (hlen : xs.length = perm.length) :
    ∃ ys, permute xs perm = .ok ys ∧ permute ys inv = .ok xs := by
  obtain ⟨ys, hys, hylen, hy⟩ := permute_eq_ok h hlen
  obtain ⟨zs, hzs, hzlen, hz⟩ := permute_eq_ok (hundo.orders h) (hylen.trans hundo.1.symm)
  refine ⟨ys, hys, hzs.trans (congrArg _ (ext_getElem? fun i => ?_))⟩
  by_cases hi : i < perm.length
  · obtain ⟨k, hk, hinv, hat⟩ := (hundo.symm h).2 i (hundo.1.symm ▸ hi)
    rw [hz i k hk hinv, hy k i hi hat]
  · rw [getElem?_eq_none (by rw [hzlen, hundo.1]; omega), getElem?_eq_none (by omega)]

end Reordering

/-- **The check is exact, and what it accepts can be undone.**  A list is accepted exactly if it has
the words `0, ..., n - 1`, each once.  Then its inverse is accepted too and has the list as its
inverse, and reordering `n` items by the one and then by the other gives them back. -/
theorem check_exact (perm : List Int64) (n : Int64) :
    (check perm n = .ok () ↔ (perm.length : Int) = n.toInt ∧ perm ~ Word.range n) ∧
    (check perm n = .ok () → ∃ inv, inverse perm = .ok inv ∧ check inv n = .ok () ∧
      inverse inv = .ok perm ∧ ∀ (α : Type) (xs : List α), (xs.length : Int) = n.toInt →
        ∃ ys, permute xs perm = .ok ys ∧ permute ys inv = .ok xs) := by
  refine ⟨check_eq_ok, fun hcheck => ?_⟩
  have h := check_eq_ok.1 hcheck
  obtain ⟨inv, hinv, hundo⟩ := inverse_undoes h
  have hinvOrders := hundo.orders h
  obtain ⟨back, hback, hundoBack⟩ := inverse_undoes hinvOrders
  obtain rfl := hundoBack.unique hinvOrders (hundo.symm h)
  refine ⟨inv, hinv, check_eq_ok.2 hinvOrders, hback, fun α xs hxs => permute_permute h hundo ?_⟩
  have := h.1
  omega

theorem check_exact_cycle : check [1, 2, 0] 3 = .ok () ∧ ∃ inv, inverse [1, 2, 0] = .ok inv ∧
    check inv 3 = .ok () ∧ inverse inv = .ok [1, 2, 0] ∧
    ∀ (α : Type) (xs : List α), (xs.length : Int) = (3 : Int64).toInt →
      ∃ ys, permute xs [1, 2, 0] = .ok ys ∧ permute ys inv = .ok xs :=
  ⟨by decide, (check_exact [1, 2, 0] 3).2 (by decide)⟩

end ConvNest.Permutation
