/-
# Simplified expressions are canonical

A linear form is determined by the coefficients of its terms and its constant: two forms without
repeated terms and zero coefficients that agree in these have the same terms in some order
(`same_of_coefs`).  The order in which terms are written does not depend on the one in which they
are held (`toExpr_same`).

The terms of the linear form of an expression are irreducible: each is its own linear form
(`linear_normal`).  So a simplified expression has the form it was written from (`linear_toExpr`),
and simplifying it again changes nothing.  Sums may be rearranged (`Rearranged`) and terms may be
met in any order (`Forms`): the simplified expression is the same (`simplify_canonical`).
-/
import ConvNest.Proofs.Simplify
import Mathlib.Data.Prod.Lex
import Mathlib.Data.String.Basic

namespace ConvNest.Affine

open List

/-! ## 1. The order of terms -/

namespace Expr

/-- A dimension or symbol whose position is not negative. -/
def Placed : Expr → Prop
  | dim p => 0 ≤ p
  | sym p => 0 ≤ p
  | _ => True

end Expr

namespace Linear

variable {e : Expr} {s t : Term} {ts us : List Term} {k : String} {c : Int64} {l : Linear}

/-- What terms are ordered by: the group, the position, and the text. -/
def place (t : Term) : ℕ ×ₗ ℤ ×ₗ String :=
  toLex ((rank t.expr).1, toLex ((rank t.expr).2.toInt, t.key))

theorem rank_nonneg (h : e.Over Expr.Placed) : 0 ≤ (rank e).2.toInt := by
  have hzero : (0 : Int64).toInt = 0 := rfl
  have hplaced {p : Int64} (hp : 0 ≤ p) : 0 ≤ p.toInt := by simpa using Int64.le_iff_toInt_le.1 hp
  cases e with
  | dim p => exact hplaced ((h p).1 (by simp [Expr.subexprs]))
  | sym p => exact hplaced ((h p).2 (by simp [Expr.subexprs]))
  | const c => exact le_of_eq hzero.symm
  | binary op l r => exact le_of_eq hzero.symm

theorem sub_neg_iff {a b : Int64} (ha : 0 ≤ a.toInt) (hb : 0 ≤ b.toInt) :
    a - b < 0 ↔ a.toInt < b.toInt := by
  have hfits : Word.Fits (a.toInt - b.toInt) := by
    have := a.toInt_lt
    have := b.toInt_lt
    exact ⟨by omega, by omega⟩
  rw [Word.neg_iff_toInt, Word.toInt_sub_of_fits hfits]
  omega

theorem textLe_iff (a b : String) : Text.le a b = true ↔ a ≤ b := by
  rw [Text.le, Bool.or_eq_true, decide_eq_true_eq, beq_iff_eq, le_iff_lt_or_eq]

/-- Terms without negative positions are ordered by their places. -/
theorem termLe_iff (hs : s.expr.Over Expr.Placed) (ht : t.expr.Over Expr.Placed) :
    termLe s t = decide (place s ≤ place t) := by
  have hpos := sub_neg_iff (rank_nonneg hs) (rank_nonneg ht)
  rw [Bool.eq_iff_iff, decide_eq_true_eq, place, place, Prod.Lex.toLex_le_toLex,
    Prod.Lex.toLex_le_toLex, termLe]
  split
  · next hgroup => simp [hgroup]
  · next hgroup =>
    rw [not_not] at hgroup
    split
    · next hposition =>
      have hne : (rank s.expr).2.toInt ≠ (rank t.expr).2.toInt :=
        fun h => hposition (Int64.toInt_inj.1 h)
      simp [hgroup, hpos, hne]
    · next hposition =>
      rw [not_not] at hposition
      simp [hgroup, hposition, textLe_iff]

/-- Terms that are placed equally have one text. -/
theorem key_of_place (h : place s = place t) : s.key = t.key := by
  have hinner := (Prod.mk.inj (toLex.injective h)).2
  exact (Prod.mk.inj (toLex.injective hinner)).2

/-- No text is repeated, and no coefficient is zero. -/
structure Reduced (ts : List Term) : Prop where
  keys : (ts.map Term.key).Nodup
  nonzero : ∀ t ∈ ts, t.coef ≠ 0

theorem Reduced.nil : Reduced [] := ⟨nodup_nil, nofun⟩

theorem Reduced.eq_of_key (h : Reduced ts) (hs : s ∈ ts) (ht : t ∈ ts) (hkey : s.key = t.key) :
    s = t :=
  inj_on_of_nodup_map h.keys hs ht hkey

theorem Reduced.sublist (h : Reduced ts) (hsub : us.Sublist ts) : Reduced us :=
  ⟨h.keys.sublist (hsub.map _), fun t ht => h.nonzero t (hsub.subset ht)⟩

theorem Reduced.perm (h : Reduced ts) (hperm : ts.Perm us) : Reduced us :=
  ⟨(hperm.map _).nodup_iff.1 h.keys, fun t ht => h.nonzero t (hperm.mem_iff.2 ht)⟩

/-- The order in which terms are sorted does not depend on the one in which they were. -/
theorem mergeSort_perm_eq (hr : Reduced ts) (hp : ∀ t ∈ ts, t.expr.Over Expr.Placed)
    (h : ts.Perm us) : ts.mergeSort termLe = us.mergeSort termLe := by
  have hplaces {xs : List Term} (hxs : ∀ t ∈ xs, t.expr.Over Expr.Placed) :
      xs.mergeSort termLe = xs.mergeSort fun s t => decide (place s ≤ place t) := by
    simpa using map_mergeSort (f := id) fun s hs t ht => termLe_iff (hxs s hs) (hxs t ht)
  have hsorted (xs : List Term) :
      (xs.mergeSort fun s t => decide (place s ≤ place t)).Pairwise fun s t =>
      decide (place s ≤ place t) = true :=
    pairwise_mergeSort
      (fun a b c hab hbc => decide_eq_true ((of_decide_eq_true hab).trans (of_decide_eq_true hbc)))
      (fun a b => by simpa using le_total (place a) (place b)) xs
  rw [hplaces hp, hplaces fun t ht => hp t (h.mem_iff.2 ht)]
  refine List.Perm.eq_of_pairwise (fun s t hs ht hst hts => ?_) (hsorted ts) (hsorted us)
    ((mergeSort_perm ts _).trans (h.trans (mergeSort_perm us _).symm))
  refine hr.eq_of_key (mem_mergeSort.1 hs) (h.mem_iff.2 (mem_mergeSort.1 ht)) (key_of_place ?_)
  exact le_antisymm (of_decide_eq_true hst) (of_decide_eq_true hts)

/-! ## 2. Coefficients -/

/-- The coefficient of the term with a text; zero if there is none. -/
def coefOf (k : String) : List Term → Int64
  | [] => 0
  | t :: ts => if t.key = k then t.coef + coefOf k ts else coefOf k ts

theorem coefOf_perm (k : String) (h : ts.Perm us) : coefOf k ts = coefOf k us := by
  induction h with
  | nil => rfl
  | cons t _ ih => simp only [coefOf, ih]
  | swap s t ts =>
    simp only [coefOf]
    split <;> split
    · rw [← Int64.add_assoc, ← Int64.add_assoc, Int64.add_comm t.coef]
    · rfl
    · rfl
    · rfl
  | trans _ _ ih₁ ih₂ => exact ih₁.trans ih₂

theorem coefOf_eq_zero (h : k ∉ ts.map Term.key) : coefOf k ts = 0 := by
  induction ts with
  | nil => rfl
  | cons t ts ih =>
    rw [map_cons, mem_cons, not_or] at h
    rw [coefOf, if_neg (Ne.symm h.1), ih h.2]

theorem Reduced.coefOf_mem (h : Reduced ts) (ht : t ∈ ts) : coefOf t.key ts = t.coef := by
  induction ts with
  | nil => cases ht
  | cons s ts ih =>
    have hkeys := nodup_cons.1 h.keys
    rcases mem_cons.1 ht with rfl | ht
    · rw [coefOf, if_pos rfl, coefOf_eq_zero hkeys.1, Int64.add_zero]
    · have hne : s.key ≠ t.key := fun heq => hkeys.1 (heq ▸ mem_map_of_mem ht)
      rw [coefOf, if_neg hne, ih (h.sublist (sublist_cons_self s ts)) ht]

theorem coefOf_addTerm (k : String) (e : Expr) (c : Int64) (ts : List Term) :
    coefOf k (addTerm e c ts) = coefOf k ts + if e.text = k then c else 0 := by
  induction ts with
  | nil =>
    rw [addTerm]
    split
    · next h => simp [h]
    · simp [coefOf, Term.key]
  | cons t ts ih =>
    rw [addTerm]
    by_cases hkey : t.key = e.text
    · rw [if_pos hkey]
      by_cases hk : e.text = k
      · -- the coefficients are added, and a zero leaves nothing
        have hcoef : coefOf k (t :: ts) + c = t.coef + c + coefOf k ts := by
          rw [coefOf, if_pos (hkey.trans hk), Int64.add_assoc, Int64.add_comm _ c,
            ← Int64.add_assoc]
        rw [if_pos hk, hcoef]
        split
        · next hzero => rw [hzero, Int64.zero_add]
        · rw [coefOf, if_pos (show (Term.mk e (t.coef + c)).key = k from hk)]
      · have hne : t.key ≠ k := fun h => hk (hkey.symm.trans h)
        rw [if_neg hk, Int64.add_zero, coefOf, if_neg hne]
        split
        · rfl
        · rw [coefOf, if_neg (show (Term.mk e (t.coef + c)).key ≠ k from hk)]
    · rw [if_neg hkey, coefOf, coefOf, ih]
      split
      · rw [Int64.add_assoc]
      · rfl

theorem coefOf_addScaled (k : String) (l m : Linear) (s : Int64) :
    coefOf k (l.addScaled m s).terms = coefOf k l.terms + coefOf k m.terms * s := by
  suffices ∀ ms ts : List Term,
    coefOf k (ms.foldl (fun ts t => addTerm t.expr (t.coef * s) ts) ts) =
      coefOf k ts + coefOf k ms * s from this m.terms l.terms
  intro ms
  induction ms with
  | nil => simp [coefOf]
  | cons t ms ih =>
    intro ts
    rw [foldl_cons, ih, coefOf_addTerm, coefOf, ← Term.key]
    split
    · rw [Int64.add_mul, Int64.add_assoc]
    · rw [Int64.add_zero]

theorem keys_addTerm (h : k ∈ (addTerm e c ts).map Term.key) :
    k = e.text ∨ k ∈ ts.map Term.key := by
  obtain ⟨t, ht, rfl⟩ := mem_map.1 h
  rcases mem_addTerm ht with heq | ht
  · exact .inl (by rw [Term.key, heq])
  · exact .inr (mem_map_of_mem ht)

theorem Reduced.addTerm (h : Reduced ts) (e : Expr) (c : Int64) : Reduced (addTerm e c ts) := by
  induction ts with
  | nil =>
    rw [Linear.addTerm]
    split
    · exact h
    · next hc => exact ⟨nodup_singleton _, by simpa using hc⟩
  | cons t ts ih =>
    have hkeys := nodup_cons.1 h.keys
    have htail : Reduced ts := h.sublist (sublist_cons_self t ts)
    rw [Linear.addTerm]
    split
    · next hkey =>
      split
      · exact htail
      · next hc =>
        refine ⟨nodup_cons.2 ⟨?_, hkeys.2⟩, forall_mem_cons.2 ⟨hc, htail.nonzero⟩⟩
        rw [hkey] at hkeys
        exact hkeys.1
    · next hkey =>
      refine ⟨nodup_cons.2 ⟨fun hmem => ?_, (ih htail).keys⟩,
        forall_mem_cons.2 ⟨h.nonzero t mem_cons_self, (ih htail).nonzero⟩⟩
      rcases keys_addTerm hmem with heq | hmem
      · exact hkey heq
      · exact hkeys.1 hmem

theorem Reduced.addScaled {m : Linear} {s : Int64} (h : Reduced l.terms) :
    Reduced (l.addScaled m s).terms :=
  foldlRecOn m.terms _ h fun _ hts t _ => hts.addTerm t.expr _

/-- A term with a new text is held at the end. -/
theorem addTerm_of_notMem (hc : c ≠ 0) (h : e.text ∉ ts.map Term.key) :
    addTerm e c ts = ts ++ [⟨e, c⟩] := by
  induction ts with
  | nil => rw [addTerm, if_neg hc]; rfl
  | cons t ts ih =>
    rw [map_cons, mem_cons, not_or] at h
    rw [addTerm, if_neg (Ne.symm h.1), ih h.2]
    rfl

/-! ## 3. Normal forms -/

/-- The same terms in some order, and the same constant. -/
structure Same (l m : Linear) : Prop where
  terms : l.terms.Perm m.terms
  constant : l.constant = m.constant

/-- The expression is its own linear form. -/
def Irreducible (e : Expr) : Prop := e.linear = .ok (ofExpr e)

/-- A form without repeated terms and zero coefficients, whose terms cannot be simplified. -/
structure Normal (l : Linear) : Prop where
  all : l.All fun e => (e.Factor ∧ e.Over Expr.Placed) ∧ Irreducible e
  reduced : Reduced l.terms

namespace Same

variable {l m n : Linear}

theorem refl (l : Linear) : Same l l := ⟨.refl _, rfl⟩

theorem symm (h : Same l m) : Same m l := ⟨h.terms.symm, h.constant.symm⟩

theorem trans (h : Same l m) (h' : Same m n) : Same l n :=
  ⟨h.terms.trans h'.terms, h.constant.trans h'.constant⟩

theorem sorted (l : Linear) : Same l ⟨l.sortedTerms, l.constant⟩ := ⟨l.sortedTerms_perm.symm, rfl⟩

theorem isConst (h : Same l m) : l.isConst = m.isConst := by
  rw [Bool.eq_iff_iff, isConst_iff, isConst_iff]
  exact ⟨fun hl => (hl ▸ h.terms).nil_eq.symm, fun hm => (hm ▸ h.terms).eq_nil⟩

theorem quotient (h : Same l m) (d : Int64) : Same (l.quotient d) (m.quotient d) :=
  ⟨(h.terms.filter _).map _, congrArg (Word.floorDiv · d) h.constant⟩

theorem rest (h : Same l m) (d : Int64) : Same (l.rest d) (m.rest d) :=
  ⟨h.terms.filter _, congrArg (Word.floorMod · d) h.constant⟩

end Same

namespace Normal

variable {l m : Linear}

theorem proper (h : l.Normal) : l.Proper Expr.Placed := fun t ht => (h.all t ht).1

theorem placed (h : l.Normal) : ∀ t ∈ l.terms, t.expr.Over Expr.Placed :=
  fun t ht => (h.all t ht).1.2

theorem legible (h : l.Normal) : ∀ t ∈ l.terms, t.expr.Legible :=
  fun t ht => (h.all t ht).1.1.legible

theorem same (h : l.Normal) (hs : Same l m) : m.Normal :=
  ⟨fun t ht => h.all t (hs.terms.mem_iff.2 ht), h.reduced.perm hs.terms⟩

section

variable (hl : l.Normal) (hm : m.Normal) (h : ∀ k, coefOf k l.terms = coefOf k m.terms)

include hl hm h

/-- Every term is a term of a form that has the same coefficients. -/
theorem mem_of_coefs {t : Term} (ht : t ∈ l.terms) : t ∈ m.terms := by
  have hcoef : coefOf t.key m.terms = t.coef := by rw [← h, hl.reduced.coefOf_mem ht]
  have hkey : t.key ∈ m.terms.map Term.key := by
    by_contra hnot
    exact hl.reduced.nonzero t ht (hcoef.symm.trans (coefOf_eq_zero hnot))
  obtain ⟨u, hu, hkey⟩ := mem_map.1 hkey
  have hexpr : u.expr = t.expr := text_injective (hm.legible u hu) (hl.legible t ht) hkey
  have hcoefs : u.coef = t.coef := by rw [← hm.reduced.coefOf_mem hu, hkey, hcoef]
  obtain rfl : u = t := by cases u; cases t; simp_all
  exact hu

/-- **Forms are determined by their coefficients.** -/
theorem same_of_coefs (hc : l.constant = m.constant) : Same l m :=
  ⟨(perm_ext_iff_of_nodup hl.reduced.keys.of_map hm.reduced.keys.of_map).2 fun _ =>
    ⟨hl.mem_of_coefs hm h, hm.mem_of_coefs hl fun k => (h k).symm⟩, hc⟩

end

/-- **Forms with the same terms are written as the same expression.** -/
theorem toExpr_same (hl : l.Normal) (h : Same l m) : l.toExpr = m.toExpr := by
  have hsorted : l.sortedTerms = m.sortedTerms := by
    rw [sortedTerms, sortedTerms, mergeSort_perm_eq hl.reduced hl.placed h.terms]
  rw [toExpr, toExpr, hsorted, h.constant]

end Normal

/-! ## 4. The form of a form that is written as an expression -/

theorem linear_termExpr (ht : Irreducible t.expr) (hc : t.coef ≠ 0) :
    (termExpr t).linear = .ok ⟨[t], 0⟩ := by
  obtain ⟨e, c⟩ := t
  rw [termExpr]
  split
  · next hone =>
    obtain rfl : c = 1 := hone
    exact ht
  · rw [Expr.mul, linear_binary ht (linear_const c)]
    simp [Linear.mul, ofConst, isConst, addScaled, ofExpr, addTerm, show c ≠ 0 from hc]

/-- Terms that are added one by one are held in that order. -/
theorem linear_sum (hirr : ∀ t ∈ ts, Irreducible t.expr) {pre : List Term}
    (hr : Reduced (pre ++ ts)) (he : e.linear = .ok ⟨pre, 0⟩) :
    ((ts.map termExpr).foldl Expr.add e).linear = .ok ⟨pre ++ ts, 0⟩ := by
  induction ts generalizing pre e with
  | nil => simpa using he
  | cons t ts ih =>
    have ht : t ∈ pre ++ t :: ts := by simp
    have hnew : t.expr.text ∉ pre.map Term.key := by
      have hkeys := hr.keys
      rw [map_append, map_cons, nodup_append] at hkeys
      exact fun hmem => hkeys.2.2 _ hmem _ mem_cons_self rfl
    have hstep : (e.add (termExpr t)).linear = .ok ⟨pre ++ [t], 0⟩ := by
      rw [Expr.add, linear_binary he (linear_termExpr (hirr t mem_cons_self) (hr.nonzero t ht))]
      simp [Linear.add, addScaled, addTerm_of_notMem (hr.nonzero t ht) hnew]
    simpa using ih (fun u hu => hirr u (mem_cons_of_mem t hu)) (by simpa using hr) hstep

/-- **A form is the form of the expression that it is written as**, with the terms in the order in
which they are written. -/
theorem Normal.linear_toExpr (h : l.Normal) :
    l.toExpr.linear = .ok ⟨l.sortedTerms, l.constant⟩ := by
  have hmem (t : Term) (ht : t ∈ l.sortedTerms) : t ∈ l.terms := l.sortedTerms_perm.mem_iff.1 ht
  have hr : Reduced l.sortedTerms := h.reduced.perm l.sortedTerms_perm.symm
  rw [toExpr]
  cases hts : l.sortedTerms with
  | nil => rfl
  | cons t ts =>
    rw [hts] at hmem hr
    have hfirst := linear_termExpr (h.all t (hmem t mem_cons_self)).2 (hr.nonzero t mem_cons_self)
    have hsum := linear_sum (fun u hu => (h.all u (hmem u (mem_cons_of_mem t hu))).2) hr hfirst
    simp only [map_cons]
    split
    · next hzero => rw [hsum, hzero]; rfl
    · rw [Expr.add, linear_binary hsum (linear_const _)]
      simp [Linear.add, addScaled, ofConst]

/-! ## 5. Expressions have normal forms -/

namespace Normal

variable {l r : Linear}
variable {d : Int64}

theorem ofConst (c : Int64) : (ofConst c).Normal := ⟨all_ofConst c, .nil⟩

theorem ofExpr {e : Expr} (hf : e.Factor) (ho : e.Over Expr.Placed) (hi : Irreducible e) :
    (ofExpr e).Normal :=
  ⟨all_ofExpr ⟨⟨hf, ho⟩, hi⟩, Reduced.nil.addTerm e 1⟩

theorem addScaled (hl : l.Normal) (hr : r.Normal) (s : Int64) : (l.addScaled r s).Normal :=
  ⟨all_addScaled hl.all hr.all, hl.reduced.addScaled⟩

theorem rest (h : l.Normal) (d : Int64) : (l.rest d).Normal :=
  ⟨all_rest h.all, h.reduced.sublist filter_sublist⟩

theorem quotient (h : l.Normal) (hd : 0 < d) : (l.quotient d).Normal := by
  refine ⟨all_quotient h.all, ?_, ?_⟩
  · have hkeys : (l.quotient d).terms.map Term.key =
        (l.terms.filter fun t => t.coef % d == 0).map Term.key := by
      simp [Linear.quotient, Term.key]
    rw [hkeys]
    exact (h.reduced.sublist filter_sublist).keys
  · intro t ht
    obtain ⟨u, hu, rfl⟩ := mem_map.1 ht
    obtain ⟨hu, hdvd⟩ := mem_filter.1 hu
    have hdvd := Word.mod_eq_zero_iff_dvd.1 (eq_of_beq hdvd)
    have hcoef : (u.coef / d).toInt = u.coef.toInt / d.toInt := by
      rw [Word.toInt_div_of_pos hd, if_pos (.inr hdvd), add_zero]
    intro hzero
    rw [Word.eq_zero_iff_toInt, hcoef] at hzero
    refine h.reduced.nonzero u hu ((Word.eq_zero_iff_toInt _).2 ?_)
    rw [← Int.mul_ediv_cancel' hdvd, hzero, mul_zero]

/-- A product of forms that are no constants cannot be simplified. -/
theorem irreducible_mul (hl : l.Normal) (hr : r.Normal) (hlc : l.isConst = false)
    (hrc : r.isConst = false) :
    Irreducible (.mul l.toExpr r.toExpr) := by
  rw [Irreducible, Expr.mul, linear_binary hl.linear_toExpr hr.linear_toExpr]
  simp only [Linear.mul, ← (Same.sorted l).isConst, ← (Same.sorted r).isConst, hlc, hrc,
    ← hl.toExpr_same (.sorted l), ← hr.toExpr_same (.sorted r), Bool.false_eq_true,
    if_false, Expr.mul]

/-- Nothing of a rest is divided by the divisor. -/
theorem rest_sorted (l : Linear) (hd : 0 < d) :
    (⟨(l.rest d).sortedTerms, (l.rest d).constant⟩ : Linear).quotient d = Linear.ofConst 0 ∧
    (⟨(l.rest d).sortedTerms, (l.rest d).constant⟩ : Linear).rest d =
      ⟨(l.rest d).sortedTerms, (l.rest d).constant⟩ := by
  have hcoef (t : Term) (ht : t ∈ (l.rest d).sortedTerms) : (t.coef % d != 0) = true :=
    (mem_filter.1 ((l.rest d).sortedTerms_perm.mem_iff.1 ht)).2
  have hpos := Word.toInt_pos hd
  have hlow := Int.emod_nonneg l.constant.toInt hpos.ne'
  have hhigh := Int.emod_lt_of_pos l.constant.toInt hpos
  have hconst : (l.rest d).constant.toInt = l.constant.toInt % d.toInt := Word.toInt_floorMod hd
  refine ⟨?_, ?_⟩
  · have hterms : (l.rest d).sortedTerms.filter (fun t => t.coef % d == 0) = [] :=
      filter_eq_nil_iff.2 fun t ht => by simpa using hcoef t ht
    have hzero : Word.floorDiv (l.rest d).constant d = 0 := by
      rw [Word.eq_zero_iff_toInt, Word.toInt_floorDiv hd, hconst, Int.ediv_eq_zero_of_lt hlow hhigh]
    simp only [Linear.quotient, hterms, hzero, map_nil, Linear.ofConst]
  · have hterms : (l.rest d).sortedTerms.filter (fun t => t.coef % d != 0) =
        (l.rest d).sortedTerms :=
      filter_eq_self.2 hcoef
    have hsame : Word.floorMod (l.rest d).constant d = (l.rest d).constant := by
      rw [← Int64.toInt_inj, Word.toInt_floorMod hd, hconst, Int.emod_eq_of_lt hlow hhigh]
    rw [Linear.rest, hsame, hterms]

/-- A quotient of a rest that is no constant cannot be simplified, and so for remainders. -/
theorem irreducible_rest (h : l.Normal) (hd : 0 < d) (hone : d ≠ 1)
    (hc : (l.rest d).isConst = false) :
    Irreducible (.binary .floordiv (l.rest d).toExpr (.const d)) ∧
      Irreducible (.binary .mod (l.rest d).toExpr (.const d)) := by
  have hsame := Same.sorted (l.rest d)
  have hc' : (⟨(l.rest d).sortedTerms, (l.rest d).constant⟩ : Linear).isConst = false := by
    rw [← hsame.isConst, hc]
  obtain ⟨hquotient, hrest⟩ := rest_sorted l hd
  have htext := (h.rest d).toExpr_same hsame
  constructor
  all_goals rw [Irreducible, linear_binary (h.rest d).linear_toExpr (linear_const d)]
  · refine (floordiv_eq _ hd).trans ?_
    rw [floored, hrest, hquotient, if_neg (by simpa [hc'] using hone), ← htext]
    rfl
  · refine (mod_eq _ hd).trans ?_
    rw [remaining, hrest, hc', if_neg (by simp), if_neg (by simpa using hone), ← htext]

theorem mul (hl : l.Normal) (hr : r.Normal) : (l.mul r).Normal := by
  have hproper := hl.proper.mul hr.proper
  rw [Linear.mul] at hproper ⊢
  split
  · exact (Normal.ofConst 0).addScaled hl _
  split
  · exact (Normal.ofConst 0).addScaled hr _
  next hrc hlc =>
  rw [if_neg hrc, if_neg hlc] at hproper
  have hfactor := hproper ⟨.mul l.toExpr r.toExpr, 1⟩ (by simp [Linear.ofExpr, addTerm])
  exact .ofExpr hfactor.1 hfactor.2 (hl.irreducible_mul hr (by simpa using hlc)
    (by simpa using hrc))

theorem floored (h : l.Normal) (hd : 0 < d) : (l.floored d).Normal := by
  rw [Linear.floored]
  split
  · exact h.quotient hd
  · next hcond =>
    rw [Bool.or_eq_true, not_or, beq_iff_eq, Bool.not_eq_true] at hcond
    obtain ⟨hw, hl, ho⟩ := (h.rest d).proper.toExpr
    have hfactor : (Expr.binary .floordiv (l.rest d).toExpr (.const d)).Factor :=
      ⟨⟨hw, hl⟩, d, hd, rfl⟩
    have hover : (Expr.binary .floordiv (l.rest d).toExpr (.const d)).Over Expr.Placed :=
      Expr.over_binary.2 ⟨ho, Expr.over_const d⟩
    have hirreducible := (h.irreducible_rest hd hcond.2 hcond.1).1
    exact ⟨all_addTerm ⟨⟨hfactor, hover⟩, hirreducible⟩ (h.quotient hd).all,
      (h.quotient hd).reduced.addTerm _ _⟩

theorem remaining (h : l.Normal) (hd : 0 < d) : (l.remaining d).Normal := by
  rw [Linear.remaining]
  split
  · exact .ofConst _
  split
  · exact .ofConst _
  next hc hone =>
  obtain ⟨hw, hl, ho⟩ := (h.rest d).proper.toExpr
  exact .ofExpr ⟨⟨hw, hl⟩, d, hd, rfl⟩ (Expr.over_binary.2 ⟨ho, Expr.over_const d⟩)
    (h.irreducible_rest hd (by simpa using hone) (by simpa using hc)).2

end Normal

end Linear

variable {e : Expr}

/-- **A well-formed expression has a normal form.** -/
theorem linear_normal (hw : e.WellFormed) (ho : e.Over Expr.Placed) :
    ∃ l, e.linear = .ok l ∧ l.Normal := by
  obtain ⟨l, hl, -, hn⟩ := linear_along (motive := fun _ l => l.Normal) hw ho
    (fun _ hp => .ofExpr trivial (Expr.over_dim hp) rfl)
    (fun _ hp => .ofExpr trivial (Expr.over_sym hp) rfl) .ofConst
      (fun _ _ _ _ _ _ _ _ ha hb => ha.addScaled hb 1) (fun _ _ _ _ _ _ _ _ ha hb => ha.mul hb)
    (fun _ _ _ hc _ _ ha => ha.floored hc) (fun _ _ _ hc ha => ha.remaining hc)
  exact ⟨l, hl, hn⟩

/-! ## 6. Operations on forms with the same terms -/

namespace Linear

namespace Same

variable {l l' r r' : Linear}

variable (hl : l.Normal)

include hl

theorem addScaled (hr : r.Normal) (hll : Same l l') (hrr : Same r r') (s : Int64) :
    Same (l.addScaled r s) (l'.addScaled r' s) := by
  refine (hl.addScaled hr s).same_of_coefs ((hl.same hll).addScaled (hr.same hrr) s)
    (fun k => ?_) ?_
  · rw [coefOf_addScaled, coefOf_addScaled, coefOf_perm k hll.terms, coefOf_perm k hrr.terms]
  · simp only [Linear.addScaled, hll.constant, hrr.constant]

theorem add_comm (hr : r.Normal) : Same (l.add r) (r.add l) := by
  refine (hl.addScaled hr 1).same_of_coefs (hr.addScaled hl 1) (fun k => ?_) ?_
  · simp only [Linear.add, coefOf_addScaled, Int64.mul_one, Int64.add_comm]
  · simp only [Linear.add, Linear.addScaled, Int64.mul_one, Int64.add_comm]

theorem add_assoc {m : Linear} (hm : m.Normal) (hr : r.Normal) :
    Same ((l.add m).add r) (l.add (m.add r)) := by
  refine ((hl.addScaled hm 1).addScaled hr 1).same_of_coefs (hl.addScaled (hm.addScaled hr 1) 1)
    (fun k => ?_) ?_
  · simp only [Linear.add, coefOf_addScaled, Int64.mul_one, Int64.add_assoc]
  · simp only [Linear.add, Linear.addScaled, Int64.mul_one, Int64.add_assoc]

theorem mul (hr : r.Normal) (hll : Same l l') (hrr : Same r r') : Same (l.mul r) (l'.mul r') := by
  simp only [Linear.mul, ← hll.isConst, ← hrr.isConst, ← hll.constant, ← hrr.constant,
    ← hl.toExpr_same hll, ← hr.toExpr_same hrr]
  split
  · exact addScaled (.ofConst 0) hl (.refl _) hll _
  split
  · exact addScaled (.ofConst 0) hr (.refl _) hrr _
  · exact .refl _

/-- The rests of both forms are written as the same expression, so that the same term is added. -/
theorem floored (hll : Same l l') {d : Int64} (hd : 0 < d) : Same (l.floored d) (l'.floored d) := by
  have hq := hll.quotient d
  have hsame : (l'.floored d) = if (l.rest d).isConst || d == 1 then l'.quotient d else
      { l'.quotient d with
        terms := addTerm (.binary .floordiv (l.rest d).toExpr (.const d)) 1
          (l'.quotient d).terms } := by
    rw [Linear.floored, ← (hll.rest d).isConst, ← (hl.rest d).toExpr_same (hll.rest d)]
  refine (hl.floored hd).same_of_coefs ((hl.same hll).floored hd) (fun k => ?_) ?_
  all_goals
    rw [hsame, Linear.floored]
    split
  · exact coefOf_perm k hq.terms
  · simp only [coefOf_addTerm, coefOf_perm k hq.terms]
  · exact hq.constant
  · exact hq.constant

theorem remaining (hll : Same l l') (d : Int64) : l.remaining d = l'.remaining d := by
  simp only [Linear.remaining, ← (hll.rest d).isConst, ← (hll.rest d).constant,
    ← (hl.rest d).toExpr_same (hll.rest d)]

end Same

end Linear

/-- The form of the expression has the same terms. -/
def HasForm (e : Expr) (m : Linear) : Prop := ∃ l, e.linear = .ok l ∧ l.Normal ∧ Linear.Same l m

namespace HasForm

variable {l r : Expr} {a b : Linear} {c : Int64}

variable (hl : HasForm l a)

include hl

theorem add (hr : HasForm r b) : HasForm (.binary .add l r) (a.add b) := by
  obtain ⟨a', ha, hna, hsa⟩ := hl
  obtain ⟨b', hb, hnb, hsb⟩ := hr
  exact ⟨_, linear_binary ha hb, hna.addScaled hnb 1, hsa.addScaled hna hnb hsb 1⟩

theorem mul (hr : HasForm r b) : HasForm (.binary .mul l r) (a.mul b) := by
  obtain ⟨a', ha, hna, hsa⟩ := hl
  obtain ⟨b', hb, hnb, hsb⟩ := hr
  exact ⟨_, linear_binary ha hb, hna.mul hnb, hsa.mul hna hnb hsb⟩

theorem floored (hc : 0 < c) : HasForm (.binary .floordiv l (.const c)) (a.floored c) := by
  obtain ⟨a', ha, hna, hsa⟩ := hl
  exact ⟨_, (linear_binary ha (linear_const c)).trans (a'.floordiv_eq hc), hna.floored hc,
    hsa.floored hna hc⟩

theorem remaining (hc : 0 < c) : HasForm (.binary .mod l (.const c)) (a.remaining c) := by
  obtain ⟨a', ha, hna, hsa⟩ := hl
  rw [← hsa.remaining hna]
  exact ⟨_, (linear_binary ha (linear_const c)).trans (a'.mod_eq hc), hna.remaining hc, .refl _⟩

end HasForm

/-! ## 7. Rearranged sums -/

/-- The expressions differ by the order and the grouping of sums, at any depth. -/
inductive Rearranged : Expr → Expr → Prop
  | refl (e : Expr) : Rearranged e e
  | symm {e f : Expr} : Rearranged e f → Rearranged f e
  | trans {e f g : Expr} : Rearranged e f → Rearranged f g → Rearranged e g
  | comm (l r : Expr) : Rearranged (.add l r) (.add r l)
  | assoc (a b c : Expr) : Rearranged (.add (.add a b) c) (.add a (.add b c))
  | within (op : Operation) {l l' r r' : Expr} :
    Rearranged l l' → Rearranged r r' → Rearranged (.binary op l r) (.binary op l' r')

/-- Both expressions have forms with the same terms. -/
def SameForms (e f : Expr) : Prop := ∃ m, f.linear = .ok m ∧ HasForm e m

namespace SameForms

variable {e f g : Expr}

theorem symm (h : SameForms e f) : SameForms f e := by
  obtain ⟨m, hm, l, hl, hn, hs⟩ := h
  exact ⟨l, hl, m, hm, hn.same hs, hs.symm⟩

theorem trans (h : SameForms e f) (h' : SameForms f g) : SameForms e g := by
  obtain ⟨m, hm, l, hl, hn, hs⟩ := h
  obtain ⟨n, hn', m', hm', -, hs'⟩ := h'
  cases hm.symm.trans hm'
  exact ⟨n, hn', l, hl, hn, hs.trans hs'⟩

theorem simplify (h : SameForms e f) : e.simplify = f.simplify := by
  obtain ⟨m, hm, l, hl, hn, hs⟩ := h
  rw [simplify_of_linear hl, simplify_of_linear hm, hn.toExpr_same hs]

end SameForms

namespace Rearranged

variable {e f : Expr}

variable (h : Rearranged e f)

include h

theorem const_iff (c : Int64) : e = .const c ↔ f = .const c := by
  induction h with
  | refl e => rfl
  | symm _ ih => exact ih.symm
  | trans _ _ ih₁ ih₂ => exact ih₁.trans ih₂
  | comm l r => exact ⟨nofun, nofun⟩
  | assoc a b c => exact ⟨nofun, nofun⟩
  | within op _ _ => exact ⟨nofun, nofun⟩

theorem wellFormed_iff : e.WellFormed ↔ f.WellFormed := by
  induction h with
  | refl e => rfl
  | symm _ ih => exact ih.symm
  | trans _ _ ih₁ ih₂ => exact ih₁.trans ih₂
  | comm l r => exact and_comm
  | assoc a b c => exact and_assoc
  | within op hl hr ihl ihr =>
    cases op with
    | add => exact and_congr ihl ihr
    | mul => exact and_congr ihl ihr
    | floordiv =>
      exact and_congr ihl (exists_congr fun c => and_congr_right fun _ => hr.const_iff c)
    | mod => exact and_congr ihl (exists_congr fun c => and_congr_right fun _ => hr.const_iff c)
    | unknown => exact Iff.rfl

theorem over_iff {P : Expr → Prop} : e.Over P ↔ f.Over P := by
  induction h with
  | refl e => rfl
  | symm _ ih => exact ih.symm
  | trans _ _ ih₁ ih₂ => exact ih₁.trans ih₂
  | comm l r => rw [Expr.over_add, Expr.over_add, and_comm]
  | assoc a b c => simp only [Expr.over_add, and_assoc]
  | within op _ _ ihl ihr => rw [Expr.over_binary, Expr.over_binary, ihl, ihr]

/-- Rearranged expressions have forms with the same terms. -/
theorem sameForms (hw : e.WellFormed) (ho : e.Over Expr.Placed) : SameForms e f := by
  induction h with
  | refl e =>
    obtain ⟨l, hl, hn⟩ := linear_normal hw ho
    exact ⟨l, hl, l, hl, hn, .refl l⟩
  | symm h ih => exact (ih (h.wellFormed_iff.2 hw) (h.over_iff.2 ho)).symm
  | trans h _ ih₁ ih₂ => exact (ih₁ hw ho).trans (ih₂ (h.wellFormed_iff.1 hw) (h.over_iff.1 ho))
  | comm l r =>
    obtain ⟨hol, hor⟩ := Expr.over_add.1 ho
    obtain ⟨a, hla, ha⟩ := linear_normal hw.1 hol
    obtain ⟨b, hrb, hb⟩ := linear_normal hw.2 hor
    exact ⟨_, linear_binary hrb hla, _, linear_binary hla hrb, ha.addScaled hb 1, .add_comm ha hb⟩
  | assoc a b c =>
    obtain ⟨hab, hoc⟩ := Expr.over_add.1 ho
    obtain ⟨hoa, hob⟩ := Expr.over_add.1 hab
    obtain ⟨l, hal, hl⟩ := linear_normal hw.1.1 hoa
    obtain ⟨m, hbm, hm⟩ := linear_normal hw.1.2 hob
    obtain ⟨n, hcn, hn⟩ := linear_normal hw.2 hoc
    exact ⟨_, linear_binary hal (linear_binary hbm hcn), _,
      linear_binary (linear_binary hal hbm) hcn,
      (hl.addScaled hm 1).addScaled hn 1, .add_assoc hl hm hn⟩
  | within op hl hr ihl ihr =>
    obtain ⟨hol, hor⟩ := Expr.over_binary.1 ho
    cases op with
    | add =>
      obtain ⟨a, ha, hla⟩ := ihl hw.1 hol
      obtain ⟨b, hb, hrb⟩ := ihr hw.2 hor
      exact ⟨_, linear_binary ha hb, hla.add hrb⟩
    | mul =>
      obtain ⟨a, ha, hla⟩ := ihl hw.1 hol
      obtain ⟨b, hb, hrb⟩ := ihr hw.2 hor
      exact ⟨_, linear_binary ha hb, hla.mul hrb⟩
    | floordiv =>
      obtain ⟨a, ha, hla⟩ := ihl hw.1 hol
      obtain ⟨c, hc, rfl⟩ := hw.2
      obtain rfl := (hr.const_iff c).1 rfl
      exact ⟨_, (linear_binary ha (linear_const c)).trans (a.floordiv_eq hc), hla.floored hc⟩
    | mod =>
      obtain ⟨a, ha, hla⟩ := ihl hw.1 hol
      obtain ⟨c, hc, rfl⟩ := hw.2
      obtain rfl := (hr.const_iff c).1 rfl
      exact ⟨_, (linear_binary ha (linear_const c)).trans (a.mod_eq hc), hla.remaining hc⟩
    | unknown => exact hw.elim

end Rearranged

/-! ## 8. Terms that are met in any order -/

/-- The linear forms of an expression if the terms of a form are met in any order, each time they
are gone through. -/
inductive Forms : Expr → Linear → Prop
  | dim (p : Int64) : Forms (.dim p) (.ofExpr (.dim p))
  | sym (p : Int64) : Forms (.sym p) (.ofExpr (.sym p))
  | const (c : Int64) : Forms (.const c) (.ofConst c)
  | add {l r : Expr} {a b : Linear} : Forms l a → Forms r b → Forms (.add l r) (a.add b)
  | mul {l r : Expr} {a b : Linear} : Forms l a → Forms r b → Forms (.mul l r) (a.mul b)
  | floordiv {l r : Expr} {a b q : Linear} : Forms l a → Forms r b → a.floordiv b.constant = .ok q →
    Forms (.binary .floordiv l r) q
  | mod {l r : Expr} {a b q : Linear} : Forms l a → Forms r b → a.mod b.constant = .ok q →
    Forms (.binary .mod l r) q
  | reorder {e : Expr} {l m : Linear} : Forms e l → Linear.Same l m → Forms e m

/-- Each of them has the same terms. -/
theorem Forms.same {m : Linear} (h : Forms e m) (hw : e.WellFormed) (ho : e.Over Expr.Placed) :
    HasForm e m := by
  have hconstant {c : Int64} {b : Linear} (h : HasForm (.const c) b) : b.constant = c := by
    obtain ⟨b', hb, -, hs⟩ := h
    rw [← hs.constant, ← Except.ok.inj hb]
    rfl
  induction h with
  | dim p => exact ⟨_, rfl, .ofExpr trivial ho rfl, .refl _⟩
  | sym p => exact ⟨_, rfl, .ofExpr trivial ho rfl, .refl _⟩
  | const c => exact ⟨_, rfl, .ofConst c, .refl _⟩
  | add _ _ ihl ihr =>
    obtain ⟨hol, hor⟩ := Expr.over_add.1 ho
    exact (ihl hw.1 hol).add (ihr hw.2 hor)
  | mul _ _ ihl ihr =>
    obtain ⟨hol, hor⟩ := Expr.over_mul.1 ho
    exact (ihl hw.1 hol).mul (ihr hw.2 hor)
  | floordiv _ _ hq ihl ihr =>
    obtain ⟨hol, hor⟩ := Expr.over_binary.1 ho
    obtain ⟨c, hc, rfl⟩ := hw.2
    rw [hconstant (ihr trivial hor), Linear.floordiv_eq _ hc] at hq
    cases hq
    exact (ihl hw.1 hol).floored hc
  | mod _ _ hq ihl ihr =>
    obtain ⟨hol, hor⟩ := Expr.over_binary.1 ho
    obtain ⟨c, hc, rfl⟩ := hw.2
    rw [hconstant (ihr trivial hor), Linear.mod_eq _ hc] at hq
    cases hq
    exact (ihl hw.1 hol).remaining hc
  | reorder _ hs ih =>
    obtain ⟨l, hl, hn, hs'⟩ := ih hw ho
    exact ⟨l, hl, hn, hs'.trans hs⟩

/-- **Simplified expressions are canonical.**  Simplifying again changes nothing; expressions that
differ by the order and the grouping of sums are simplified to the same expression; and so is an
expression whose terms are met in any other order. -/
theorem simplify_canonical {e : Expr} (hw : e.WellFormed) (hp : e.Over Expr.Placed) :
    ∃ s, e.simplify = .ok s ∧ s.simplify = .ok s ∧ (∀ f, Rearranged e f → f.simplify = .ok s) ∧
      ∀ l, Forms e l → l.toExpr = s := by
  obtain ⟨l, hl, hn⟩ := linear_normal hw hp
  refine ⟨l.toExpr, simplify_of_linear hl, ?_, fun f hf => ?_, fun m hm => ?_⟩
  · rw [simplify_of_linear hn.linear_toExpr]
    exact congrArg Except.ok (hn.toExpr_same (.sorted l)).symm
  · rw [← (hf.sameForms hw hp).simplify, simplify_of_linear hl]
  · obtain ⟨l', hl', -, hs⟩ := hm.same hw hp
    obtain rfl := Except.ok.inj (hl.symm.trans hl')
    exact (hn.toExpr_same hs).symm

/-- `(d0 * 8 + (s0 - 5)) floordiv 4 + d1` and a rearrangement of it under the quotient and above. -/
theorem simplify_canonical_quotient :
    let e : Expr :=
      .add (.binary .floordiv (.add (.mul (.dim 0) (.const 8)) (.add (.sym 0) (.const (-5))))
        (.const 4))
      (.dim 1)
    let f : Expr := .add (.dim 1)
      (.binary .floordiv (.add (.add (.const (-5)) (.sym 0)) (.mul (.dim 0) (.const 8))) (.const 4))
    ∃ s, e.simplify = .ok s ∧ s.simplify = .ok s ∧ f.simplify = .ok s ∧
      s.text = "d0 * 2 + d1 + (s0 + 3) floordiv 4 - 2" := by
  intro e f
  have hw : e.WellFormed := ⟨⟨⟨⟨trivial, trivial⟩, trivial, trivial⟩, 4, by decide, rfl⟩, trivial⟩
  have hp : e.Over Expr.Placed := by
    refine Expr.over_add.2
      ⟨Expr.over_binary.2 ⟨Expr.over_add.2 ⟨Expr.over_mul.2 ⟨?_, Expr.over_const _⟩,
      Expr.over_add.2 ⟨?_, Expr.over_const _⟩⟩, Expr.over_const _⟩, ?_⟩
    all_goals exact fun p => ⟨by simp +contextual [Expr.subexprs, Expr.Placed],
      by simp +contextual [Expr.subexprs, Expr.Placed]⟩
  have hf : Rearranged e f := .trans (.comm _ _) (.within .add (.refl _)
    (.within .floordiv (.trans (.comm _ _) (.within .add (.comm _ _) (.refl _))) (.refl _)))
  obtain ⟨s, hs, htwice, hall, -⟩ := simplify_canonical hw hp
  refine ⟨s, hs, htwice, hall f hf, ?_⟩
  have hvalue : e.simplify = .ok (.add (.add (.add (.mul (.dim 0) (.const 2)) (.dim 1))
      (.binary .floordiv (.add (.sym 0) (.const 3)) (.const 4))) (.const (-2))) := by cbv
  obtain rfl := Except.ok.inj (hvalue.symm.trans hs)
  decide +kernel

end ConvNest.Affine
