/-
# Symbols in range, and their renumbering

A map takes as many symbols as it says, and `replace` does not fail on positions that are in range
(`replace_within`).  Symbols that are left out of a list are renumbered: the table of `renumber`
gives the place of a kept item among those that are kept (`renumber_kept`), so that an expression
whose symbols are all kept has the same value at the values of the kept ones (`Kept.eval`).
-/
import ConvNest.Program.Build
import ConvNest.Proofs.MapText
import ConvNest.Proofs.Substitution

namespace ConvNest.Affine

open Program List

/-! ## 1. Positions in range -/

namespace Expr

variable {e : Expr} {P : Expr → Prop}

/-- All subexpressions, from the dimensions and symbols among them. -/
theorem Over.subexprs (h : e.Over P) (hconst : ∀ c, P (const c))
    (hbinary : ∀ op l r, P (binary op l r)) :
    ∀ x ∈ e.subexprs, P x := by
  intro x hx
  cases x with
  | dim p => exact (h p).1 hx
  | sym p => exact (h p).2 hx
  | const c => exact hconst c
  | binary op l r => exact hbinary op l r

end Expr

section Lists

variable {α : Type} {xs : List α} {p : Int64} {x : α}

theorem lt_length_iff (hlen : xs.length < 2 ^ 63) : p < Word.length xs ↔ p.toInt < xs.length := by
  rw [Int64.lt_iff_toInt_lt, Word.length, Int64.toInt_ofNat_of_lt hlen]

theorem toNat_ofNat {k : Nat} (h : k < 2 ^ 63) : (Int64.ofNat k).toInt.toNat = k := by
  rw [Int64.toInt_ofNat_of_lt h, Int.toNat_natCast]

theorem ofNat_position (hp : 0 ≤ p.toInt) : Int64.ofNat p.toInt.toNat = p := by
  have := p.toInt_lt
  rw [← Int64.toInt_inj, Int64.toInt_ofNat_of_lt (by omega)]
  omega

end Lists

/-- The entry of a table at a position; what it does not tell stays. -/
def lookup (mk : Int64 → Expr) (table : List (Option Expr)) (p : Int64) : Expr :=
  table[p.toInt.toNat]?.join.getD (mk p)

theorem substitute_eq {table : List (Option Expr)} {mk : Int64 → Expr} {p : Int64}
    (hp : 0 ≤ p.toInt) (hlen : table.length < 2 ^ 63) :
    Expr.substitute (mk p) p table = .ok (lookup mk table p) := by
  rw [Expr.substitute, lookup]
  split
  · next hlt =>
    rw [lt_length_iff hlen] at hlt
    have hget := getElem?_eq_getElem (show p.toInt.toNat < table.length by omega)
    rw [pick_eq_ok.2 ⟨hp, hget⟩, hget]
    rfl
  · next hlt =>
    rw [lt_length_iff hlen] at hlt
    rw [getElem?_eq_none (by omega)]
    rfl

/-- **No replacement fails where positions are not negative.** -/
theorem replace_placed {ds ss : List (Option Expr)} {e : Expr} (h : e.Over Expr.Placed)
    (hds : ds.length < 2 ^ 63) (hss : ss.length < 2 ^ 63) :
    e.replace ds ss = .ok (e.subst (lookup .dim ds) (lookup .sym ss)) := by
  refine Expr.replace_eq_subst fun p => ⟨fun hp => ?_, fun hp => ?_⟩
  · exact substitute_eq (Int64.le_iff_toInt_le.1 ((h p).1 hp)) hds
  · exact substitute_eq (Int64.le_iff_toInt_le.1 ((h p).2 hp)) hss

theorem lookup_nil (mk : Int64 → Expr) : lookup mk [] = mk := by
  funext p
  simp [lookup]

namespace Map

variable {d s : Nat} {rs : List Expr} {m : Map}

/-- A map is built from results whose positions are in range. -/
theorem make_within (hd : d < 2 ^ 63) (hs : s < 2 ^ 63) (h : ∀ e ∈ rs, e.Over (Expr.Within d s)) :
    make (.ofNat d) (.ofNat s) rs = .ok ⟨.ofNat d, .ofNat s, rs⟩ := by
  refine make_eq_ok.2 ⟨rfl, fun e he x hx => ?_⟩
  have hin := (h e he).subexprs (fun _ => trivial) (fun _ _ _ => trivial) x hx
  cases x with
  | dim p =>
    have : ¬ (p < 0 ∨ Int64.ofNat d ≤ p) := by
      rw [Int64.lt_iff_toInt_lt, Int64.le_iff_toInt_le, Int64.toInt_ofNat_of_lt hd, not_or,
        not_lt, not_le]
      exact hin
    rw [checkPosition, if_neg this]
  | sym p =>
    have : ¬ (p < 0 ∨ Int64.ofNat s ≤ p) := by
      rw [Int64.lt_iff_toInt_lt, Int64.le_iff_toInt_le, Int64.toInt_ofNat_of_lt hs, not_or,
        not_lt, not_le]
      exact hin
    rw [checkPosition, if_neg this]
  | _ => rfl

theorem usesSym_iff {p : Int64} : m.usesSym p = true ↔ ∃ e ∈ m.results, .sym p ∈ e.subexprs := by
  rw [usesSym, any_eq_true, subexprs]
  constructor
  · rintro ⟨x, hx, huses⟩
    obtain ⟨e, he, hx⟩ := mem_flatMap.1 hx
    cases x with
    | sym q => exact ⟨e, he, by rw [← eq_of_beq huses]; exact hx⟩
    | _ => cases huses
  · rintro ⟨e, he, hx⟩
    exact ⟨.sym p, mem_flatMap.2 ⟨e, he, hx⟩, by simp⟩

/-- As many symbols as can be marked have words for numbers. -/
theorem lt_of_marked (h : s ≤ markCapacity.toInt.toNat) : s < 2 ^ 63 := h.trans_lt (by decide)

theorem usedSyms_eq (hm : m.syms = .ofNat s) (hs : s ≤ markCapacity.toInt.toNat) :
    m.usedSyms = .ok ((List.range s).map fun i => m.usesSym (.ofNat i)) := by
  have hcap : markCapacity.toInt = 281474976710656 := by decide
  have hlt := lt_of_marked hs
  have hok : ¬ (Int64.ofNat s < 0 ∨ markCapacity < Int64.ofNat s) := by
    rw [Int64.lt_iff_toInt_lt, Int64.lt_iff_toInt_lt, Int64.toInt_ofNat_of_lt hlt, Int64.toInt_zero]
    omega
  rw [usedSyms, hm, if_neg hok, Word.range, toNat_ofNat hlt, map_map]
  rfl

end Map

/-! ## 2. New numbers -/

variable {α : Type} {ps : List (Bool × α)} {i : Nat} {x : α}

/-- The numbers of kept items, from the given one on. -/
def numbers : Nat → List (Bool × α) → List (Option Expr)
  | _, [] => []
  | n, (true, _) :: ps => some (.sym (.ofNat n)) :: numbers (n + 1) ps
  | n, (false, _) :: ps => none :: numbers n ps

/-- The items that are kept. -/
def keptOf (ps : List (Bool × α)) : List α := (ps.filter Prod.fst).map Prod.snd

theorem renumber_eq (keep : List Bool) (items : List α) :
    Edit.renumber keep items = (numbers 0 (keep.zip items), keptOf (keep.zip items)) := by
  suffices ∀ (ps : List (Bool × α)) (acc : List (Option Expr) × List α),
      ps.foldl (fun acc p => if p.1 then
        (acc.1 ++ [some (.sym (Word.length acc.2))], acc.2 ++ [p.2])
        else (acc.1 ++ [none], acc.2)) acc =
          (acc.1 ++ numbers acc.2.length ps, acc.2 ++ keptOf ps) by
    have := this (keep.zip items) ([], [])
    simpa [Edit.renumber] using this
  intro ps
  induction ps with
  | nil => simp [numbers, keptOf]
  | cons p ps ih =>
    intro acc
    obtain ⟨k, x⟩ := p
    cases k with
    | true =>
      rw [foldl_cons, ih]
      simp [numbers, keptOf, Word.length]
    | false =>
      rw [foldl_cons, ih]
      simp [numbers, keptOf]

theorem length_numbers (n : Nat) (ps : List (Bool × α)) : (numbers n ps).length = ps.length := by
  induction ps generalizing n with
  | nil => rfl
  | cons p ps ih =>
    obtain ⟨k, x⟩ := p
    cases k <;> simp [numbers, ih]

/-- A kept item is found by its number among those that are kept. -/
theorem numbers_kept (n : Nat) (h : ps[i]? = some (true, x)) :
    ∃ j, (numbers n ps)[i]? = some (some (.sym (.ofNat (n + j)))) ∧ (keptOf ps)[j]? = some x := by
  induction ps generalizing n i with
  | nil => simp at h
  | cons p ps ih =>
    obtain ⟨k, y⟩ := p
    cases i with
    | zero =>
      obtain ⟨rfl, rfl⟩ : k = true ∧ y = x := by simpa using h
      exact ⟨0, rfl, by simp [keptOf]⟩
    | succ i =>
      cases k with
      | true =>
        obtain ⟨j, hj, hx⟩ := ih (n + 1) (by simpa using h)
        refine ⟨j + 1, ?_, by simpa [keptOf] using hx⟩
        rw [numbers, getElem?_cons_succ, hj, Nat.add_right_comm, Nat.add_assoc]
      | false =>
        obtain ⟨j, hj, hx⟩ := ih n (by simpa using h)
        exact ⟨j, by rw [numbers, getElem?_cons_succ, hj], by simpa [keptOf] using hx⟩

/-- Every number is that of a kept item. -/
theorem numbers_of_kept (n : Nat) {j : Nat} (h : j < (keptOf ps).length) :
    ∃ (i : Nat) (x : α), ps[i]? = some (true, x) ∧
      (numbers n ps)[i]? = some (some (.sym (.ofNat (n + j)))) := by
  induction ps generalizing n j with
  | nil => simp [keptOf] at h
  | cons p ps ih =>
    obtain ⟨k, y⟩ := p
    cases k with
    | true =>
      cases j with
      | zero => exact ⟨0, y, rfl, rfl⟩
      | succ j =>
        obtain ⟨i, x, hi, hn⟩ := ih (n + 1) (by simpa [keptOf] using h)
        exact ⟨i + 1, x, hi,
          by rw [numbers, getElem?_cons_succ, hn, Nat.add_right_comm, Nat.add_assoc]⟩
    | false =>
      obtain ⟨i, x, hi, hn⟩ := ih n (by simpa [keptOf] using h)
      exact ⟨i + 1, x, hi, by rw [numbers, getElem?_cons_succ, hn]⟩

theorem length_keptOf_le (ps : List (Bool × α)) : (keptOf ps).length ≤ ps.length := by
  rw [keptOf, length_map]
  exact length_filter_le _ _

/-- What all items have, the kept ones have. -/
theorem mapM_keptOf {w : α → Option Int64} {vals : List Int64}
    (h : (ps.map Prod.snd).mapM w = some vals) :
    ∃ kvals, (keptOf ps).mapM w = some kvals := by
  induction ps generalizing vals with
  | nil => exact ⟨[], rfl⟩
  | cons p ps ih =>
    obtain ⟨k, x⟩ := p
    rw [map_cons, mapM_cons] at h
    obtain ⟨v, hv, h⟩ := Option.bind_eq_some_iff.1 h
    obtain ⟨vs, hvs, h⟩ := Option.bind_eq_some_iff.1 h
    obtain ⟨kvals, hk⟩ := ih hvs
    cases k with
    | true =>
      refine ⟨v :: kvals, ?_⟩
      have hcons : keptOf ((true, x) :: ps) = x :: keptOf ps := by simp [keptOf]
      rw [hcons, mapM_cons, hv, hk]
      rfl
    | false => exact ⟨kvals, by simpa [keptOf] using hk⟩

theorem mapM_getElem? {β : Type} {w : α → Option β} {xs : List α} {ys : List β}
    (h : xs.mapM w = some ys) {i : Nat} {x : α} (hx : xs[i]? = some x) : ys[i]? = w x := by
  induction xs generalizing ys i with
  | nil => simp at hx
  | cons a xs ih =>
    rw [mapM_cons] at h
    obtain ⟨b, hb, h⟩ := Option.bind_eq_some_iff.1 h
    obtain ⟨bs, hbs, h⟩ := Option.bind_eq_some_iff.1 h
    cases h
    cases i with
    | zero =>
      obtain rfl : a = x := by simpa using hx
      simpa using hb.symm
    | succ i => simpa using ih hbs (by simpa using hx)

/-! ## 3. Expressions with new numbers -/

/-- All symbols of the expression are kept. -/
structure Kept (keep : List Bool) (d : Nat) (e : Expr) : Prop where
  wellFormed : e.WellFormed
  within : e.Over (Expr.Within d keep.length)
  keeps : ∀ p, .sym p ∈ e.subexprs → keep[p.toInt.toNat]? = some true

namespace Kept

variable {keep : List Bool} {items : List α} {d : Nat} {e : Expr}

/-- Keeping what is used keeps all symbols. -/
theorem of_uses {uses : Int64 → Bool} {n : Nat} (hw : e.WellFormed) (ho : e.Over (Expr.Within d n))
    (h : ∀ p, .sym p ∈ e.subexprs → uses p = true) :
    Kept ((List.range n).map fun i => uses (.ofNat i)) d e where
  wellFormed := hw
  within := by simpa using ho
  keeps p hp := by
    have hin : 0 ≤ p.toInt ∧ p.toInt < n := (ho p).2 hp
    rw [getElem?_map, getElem?_range (by omega), Option.map_some, ofNat_position hin.1, h p hp]

/-- The expression with the new numbers of its symbols. -/
def renumbered (keep : List Bool) (items : List α) (e : Expr) : Expr :=
  e.subst .dim (lookup .sym (numbers 0 (keep.zip items)))

section

variable (h : Kept keep d e) (hlen : keep.length = items.length)

include h hlen

theorem replace (hlt : items.length < 2 ^ 63) :
    e.replace [] (numbers 0 (keep.zip items)) = .ok (renumbered keep items e) := by
  rw [replace_placed (h.within.mono Expr.within_placed) (by simp), lookup_nil]
  · rfl
  · rw [length_numbers, length_zip]
    omega

/-- The new number of a symbol, and what is found there. -/
theorem lookup {p : Int64} (hp : .sym p ∈ e.subexprs) :
    ∃ j x, lookup .sym (numbers 0 (keep.zip items)) p = .sym (.ofNat j) ∧
      items[p.toInt.toNat]? = some x ∧ (keptOf (keep.zip items))[j]? = some x := by
  have hin : 0 ≤ p.toInt ∧ p.toInt < keep.length := (h.within p).2 hp
  have hget := getElem?_eq_getElem (show p.toInt.toNat < items.length by omega)
  obtain ⟨j, hj, hx⟩ := numbers_kept 0 (getElem?_zip_eq_some.2 ⟨h.keeps p hp, hget⟩)
  refine ⟨j, _, ?_, hget, hx⟩
  rw [Affine.lookup, hj, Nat.zero_add]
  rfl

theorem renumbered_over (hlt : items.length < 2 ^ 63) :
    (renumbered keep items e).Over (Expr.Within d (keptOf (keep.zip items)).length) := by
  refine Expr.over_subst fun p => ⟨fun hp => Expr.over_dim ((h.within p).1 hp), fun hp => ?_⟩
  obtain ⟨j, x, hj, -, hx⟩ := h.lookup hlen hp
  have hjlt := (List.getElem?_eq_some_iff.1 hx).1
  have hle := length_keptOf_le (keep.zip items)
  rw [length_zip] at hle
  rw [Expr.subst, hj]
  refine Expr.over_sym ?_
  simp only [Expr.Within]
  rw [Int64.toInt_ofNat_of_lt (by omega)]
  omega

end

variable {w : α → Option Int64} {vals kvals dims : List Int64}

variable (h : Kept keep d e) (hlen : keep.length = items.length) (hlt : items.length < 2 ^ 63)
  (hvals : items.mapM w = some vals) (hk : (keptOf (keep.zip items)).mapM w = some kvals)

include h hlen hlt hvals hk

theorem eval_atom :
    e.Over fun x => (renumbered keep items x).eval dims kvals = x.eval dims vals := by
  refine fun p => ⟨fun _ => rfl, fun hp => ?_⟩
  obtain ⟨j, x, hj, hx, hkept⟩ := h.lookup hlen hp
  have hin : 0 ≤ p.toInt := ((h.within p).2 hp).1
  have hjlt := (List.getElem?_eq_some_iff.1 hkept).1
  have hle := length_keptOf_le (keep.zip items)
  rw [length_zip] at hle
  have hj' : (Int64.ofNat j).toInt.toNat = j := toNat_ofNat (by omega)
  have hv := mapM_getElem? hvals hx
  have hkv := mapM_getElem? hk hkept
  obtain ⟨n, hn⟩ : ∃ n, w x = some n := by
    rw [← hkv]
    exact ⟨_, getElem?_eq_getElem (by rw [length_of_mapM hk]; exact hjlt)⟩
  rw [hn] at hv hkv
  rw [renumbered, Expr.subst, hj, Expr.eval, Expr.eval, pick_eq_ok.2 ⟨hin, hv⟩]
  exact pick_eq_ok.2 ⟨by rw [Int64.toInt_ofNat_of_lt (by omega)]; omega, by rw [hj']; exact hkv⟩

/-- **With new numbers an expression has the same value.** -/
theorem eval :
    (renumbered keep items e).eval dims kvals = e.eval dims vals :=
  Expr.eval_subst h.wellFormed (h.eval_atom hlen hlt hvals hk)

end Kept

end ConvNest.Affine
