/-
# The value of a linear form

Expressions and linear forms are given values in a commutative ring (`Model`).  There are two such
rings: the integers, where sums and products are what they should be, and the bit vectors, where
they wrap around as those of words do.

Words go into the integers only as long as nothing wraps around.  `buildsExactly` asks this of every
sum and product of coefficients and constants that is computed while a linear form is built; for bit
vectors it always holds.  Under it a linear form has the value of the expression it was built from:
`linear_valueIn` for the integers, and `linear_valueIn_words` for bit vectors and expressions
without quotients.
-/
import ConvNest.Proofs.ExprText
import ConvNest.Proofs.WordArith
import Mathlib.Algebra.BigOperators.Ring.List
import Mathlib.Data.BitVec
import Mathlib.Tactic.LinearCombination
import Mathlib.Tactic.Ring

namespace ConvNest.Affine

open List hiding beq_eq_decide

/-! ## 1. Expressions -/

namespace Expr

/-- Every quotient and remainder is one by a positive constant, and every operation has a
meaning. -/
def WellFormed : Expr → Prop
  | binary .add l r => l.WellFormed ∧ r.WellFormed
  | binary .mul l r => l.WellFormed ∧ r.WellFormed
  | binary .floordiv l r => l.WellFormed ∧ ∃ c, 0 < c ∧ r = const c
  | binary .mod l r => l.WellFormed ∧ ∃ c, 0 < c ∧ r = const c
  | binary .unknown _ _ => False
  | _ => True

/-- The expression is made of sums and products only. -/
def Polynomial : Expr → Prop
  | binary .add l r => l.Polynomial ∧ r.Polynomial
  | binary .mul l r => l.Polynomial ∧ r.Polynomial
  | binary _ _ _ => False
  | _ => True

/-- All dimensions and symbols of the expression are among those that `P` allows. -/
def Over (P : Expr → Prop) (e : Expr) : Prop :=
  ∀ p, (dim p ∈ e.subexprs → P (dim p)) ∧ (sym p ∈ e.subexprs → P (sym p))

variable {P : Expr → Prop} {l r : Expr} {p : Int64}

theorem over_binary {op : Operation} : (binary op l r).Over P ↔ l.Over P ∧ r.Over P := by
  simp only [Over, subexprs]
  grind

theorem over_add : (l.add r).Over P ↔ l.Over P ∧ r.Over P := over_binary

theorem over_mul : (l.mul r).Over P ↔ l.Over P ∧ r.Over P := over_binary

theorem over_const (c : Int64) : (const c).Over P := by simp [Over, subexprs]

theorem over_dim (h : P (dim p)) : (dim p).Over P := by
  intro q
  simp only [subexprs, mem_singleton, Expr.dim.injEq, reduceCtorEq, false_implies, and_true]
  rintro rfl
  exact h

theorem over_sym (h : P (sym p)) : (sym p).Over P := by
  intro q
  simp only [subexprs, mem_singleton, Expr.sym.injEq, reduceCtorEq, false_implies, true_and]
  rintro rfl
  exact h

theorem over_true (e : Expr) : e.Over fun _ => True := fun _ => ⟨fun _ => trivial, fun _ => trivial⟩

/-- Induction over well-formed expressions, with what is known of their dimensions and symbols. -/
@[elab_as_elim]
theorem WellFormed.along {motive : Expr → Prop} {e : Expr} (hw : e.WellFormed) (ho : e.Over P)
    (dim : ∀ p, P (dim p) → motive (dim p)) (sym : ∀ p, P (sym p) → motive (sym p))
    (const : ∀ c, motive (const c))
    (add : ∀ l r, motive l → motive r → motive (binary .add l r))
    (mul : ∀ l r, motive l → motive r → motive (binary .mul l r))
    (floordiv : ∀ l c, 0 < c → motive l → motive (binary .floordiv l (.const c)))
    (mod : ∀ l c, 0 < c → motive l → motive (binary .mod l (.const c))) : motive e := by
  induction e with
  | dim p => exact dim p ((ho p).1 (by simp [subexprs]))
  | sym p => exact sym p ((ho p).2 (by simp [subexprs]))
  | const c => exact const c
  | binary op l r ihl ihr =>
    obtain ⟨hol, hor⟩ := over_binary.1 ho
    cases op with
    | add => exact add l r (ihl hw.1 hol) (ihr hw.2 hor)
    | mul => exact mul l r (ihl hw.1 hol) (ihr hw.2 hor)
    | floordiv =>
      obtain ⟨c, hc, rfl⟩ := hw.2
      exact floordiv l c hc (ihl hw.1 hol)
    | mod =>
      obtain ⟨c, hc, rfl⟩ := hw.2
      exact mod l c hc (ihl hw.1 hol)
    | unknown => exact hw.elim

/-- What a linear form takes as one term. -/
def Factor : Expr → Prop
  | dim _ => True
  | sym _ => True
  | binary .mul l r =>
    (l.WellFormed ∧ l.Legible) ∧ (r.WellFormed ∧ r.Legible) ∧ ∀ c, r ≠ const c
  | binary .floordiv l r => (l.WellFormed ∧ l.Legible) ∧ ∃ c, 0 < c ∧ r = const c
  | binary .mod l r => (l.WellFormed ∧ l.Legible) ∧ ∃ c, 0 < c ∧ r = const c
  | _ => False

variable {e : Expr} (h : e.Factor)

include h

theorem Factor.wellFormed : e.WellFormed := by
  unfold Factor at h
  split at h
  · trivial
  · trivial
  · exact ⟨h.1.1, h.2.1.1⟩
  · exact ⟨h.1.1, h.2⟩
  · exact ⟨h.1.1, h.2⟩
  · exact h.elim

theorem Factor.legible : e.Legible := by
  unfold Factor at h
  split at h
  · trivial
  · trivial
  · exact ⟨h.1.2, h.2.1.2⟩
  · obtain ⟨hl, c, -, hc⟩ := h
    exact ⟨hl.2, c, hc⟩
  · obtain ⟨hl, c, -, hc⟩ := h
    exact ⟨hl.2, c, hc⟩
  · exact h.elim

/-- A term is no multiple, so that its sign is in its coefficient. -/
theorem Factor.isMultiple : e.isMultiple = false := by
  unfold Expr.isMultiple
  split
  · exact h.elim
  · exact absurd rfl (h.2.2 _)
  · rfl

end Expr

/-! ## 2. The terms of a linear form -/

namespace Linear

/-- Every term is one of the expressions that `Q` allows. -/
def All (Q : Expr → Prop) (l : Linear) : Prop := ∀ t ∈ l.terms, Q t.expr

variable {Q : Expr → Prop}

section

variable {e : Expr} {ts : List Term} {l : Linear} {d c : Int64}

theorem mem_addTerm {t : Term} (h : t ∈ addTerm e c ts) : t.expr = e ∨ t ∈ ts := by
  induction ts with
  | nil =>
    rw [addTerm] at h
    split at h
    · cases h
    · exact .inl (by rw [mem_singleton.1 h])
  | cons s ts ih =>
    rw [addTerm] at h
    split at h
    · split at h
      · exact .inr (mem_cons_of_mem s h)
      · rcases mem_cons.1 h with rfl | h
        · exact .inl rfl
        · exact .inr (mem_cons_of_mem s h)
    · rcases mem_cons.1 h with rfl | h
      · exact .inr mem_cons_self
      · exact (ih h).imp_right (mem_cons_of_mem s)

theorem all_addTerm {k l : Int64} (he : Q e) (h : All Q ⟨ts, k⟩) :
    All Q ⟨addTerm e c ts, l⟩ := fun t ht => by
  rcases mem_addTerm ht with heq | ht
  · exact heq ▸ he
  · exact h t ht

theorem all_ofConst (c : Int64) : (ofConst c).All Q := nofun

theorem all_ofExpr (he : Q e) : (ofExpr e).All Q := by
  rintro t ht
  rcases mem_addTerm ht with heq | ht
  · exact heq ▸ he
  · cases ht

theorem all_addScaled {m : Linear} {s : Int64} (hl : l.All Q) (hm : m.All Q) :
    (l.addScaled m s).All Q :=
  List.foldlRecOn (motive := fun ts => All Q ⟨ts, 0⟩) m.terms _ hl fun _ hts t ht =>
  all_addTerm (hm t ht) hts

theorem all_quotient (h : l.All Q) : (l.quotient d).All Q := by
  intro t ht
  obtain ⟨u, hu, rfl⟩ := mem_map.1 ht
  exact h u (mem_filter.1 hu).1

theorem all_rest (h : l.All Q) : (l.rest d).All Q :=
  fun t ht => h t (mem_filter.1 ht).1

end

/-- The terms are written in another order. -/
theorem sortedTerms_perm (l : Linear) : l.sortedTerms.Perm l.terms :=
  (filter_append_perm _ _).trans (mergeSort_perm _ _)

theorem isConst_iff {l : Linear} : l.isConst = true ↔ l.terms = [] := List.isEmpty_iff

/-! ## 3. Linear forms as expressions -/

section

variable {l : Linear} {P : Expr → Prop} {t : Term}

/-- What holds of the terms and of constants, and is kept by sums, holds of the whole. -/
theorem toExpr_induction {motive : Expr → Prop} (const : l.terms = [] → ∀ c, motive (.const c))
    (term : ∀ t ∈ l.terms, motive (termExpr t))
    (addTerm : ∀ e, motive e → ∀ t ∈ l.terms, motive (.add e (termExpr t)))
    (addConst : ∀ e, motive e → ∀ c, motive (.add e (.const c))) : motive l.toExpr := by
  have hmem (t : Term) (ht : t ∈ l.sortedTerms) : t ∈ l.terms := l.sortedTerms_perm.mem_iff.1 ht
  rw [toExpr]
  cases hts : l.sortedTerms with
  | nil => exact const (hts ▸ l.sortedTerms_perm).nil_eq.symm _
  | cons t ts =>
    rw [hts] at hmem
    have hsum : motive ((ts.map termExpr).foldl Expr.add (termExpr t)) := by
      have hmore (s : Term) (hs : s ∈ ts) : s ∈ l.terms := hmem s (mem_cons_of_mem t hs)
      have hfirst := term t (hmem t mem_cons_self)
      generalize termExpr t = e at hfirst
      clear hts hmem
      induction ts generalizing e with
      | nil => exact hfirst
      | cons s ts ih =>
        exact ih (fun u hu => hmore u (mem_cons_of_mem s hu)) _
          (addTerm e hfirst s (hmore s mem_cons_self))
    simp only [map_cons]
    split
    · exact hsum
    · exact addConst _ hsum _

theorem over_termExpr (h : t.expr.Over P) : (termExpr t).Over P := by
  rw [termExpr]
  split
  · exact h
  · exact Expr.over_mul.2 ⟨h, Expr.over_const _⟩

theorem over_toExpr (h : l.All (Expr.Over P)) : l.toExpr.Over P :=
  toExpr_induction (fun _ => Expr.over_const) (fun t ht => over_termExpr (h t ht))
    (fun _ he t ht => Expr.over_add.2 ⟨he, over_termExpr (h t ht)⟩)
    fun _ he c => Expr.over_add.2 ⟨he, Expr.over_const c⟩

theorem wellFormed_termExpr (h : t.expr.WellFormed) : (termExpr t).WellFormed := by
  rw [termExpr]
  split
  · exact h
  · exact ⟨h, trivial⟩

theorem wellFormed_toExpr (h : l.All Expr.Factor) : l.toExpr.WellFormed :=
  toExpr_induction (fun _ _ => trivial) (fun t ht => wellFormed_termExpr (h t ht).wellFormed)
    (fun _ he t ht => ⟨he, wellFormed_termExpr (h t ht).wellFormed⟩) fun _ he _ => ⟨he, trivial⟩

theorem legible_termExpr (h : t.expr.Factor) : (termExpr t).Legible := by
  rw [termExpr]
  split
  · exact h.legible
  · exact ⟨h.legible, trivial⟩

theorem signed_termExpr (h : t.expr.Factor) (m : Expr) (hm : termExpr t = .mul m (.const (-1))) :
    m.isMultiple = false := by
  rw [termExpr] at hm
  split at hm
  · rw [hm] at h
    exact absurd rfl (h.2.2 (-1))
  · obtain rfl : t.expr = m := by injection hm
    exact h.isMultiple

theorem legible_toExpr (h : l.All Expr.Factor) : l.toExpr.Legible :=
  toExpr_induction (fun _ _ => trivial) (fun t ht => legible_termExpr (h t ht))
    (fun _ he t ht => ⟨he, legible_termExpr (h t ht), signed_termExpr (h t ht)⟩)
    fun _ he _ => ⟨he, trivial, nofun⟩

theorem toExpr_ne_const (h : l.All Expr.Factor) (hl : l.isConst = false) (c : Int64) :
    l.toExpr ≠ .const c := by
  refine toExpr_induction (motive := fun e => e ≠ .const c) (fun hnil _ => ?_) (fun t ht heq => ?_)
    (fun _ _ _ _ => nofun) (fun _ _ _ => nofun)
  · rw [isConst_iff.2 hnil] at hl
    cases hl
  · rw [termExpr] at heq
    split at heq
    · have hfactor := h t ht
      rw [heq] at hfactor
      exact hfactor
    · cases heq

end

/-! ## 4. Building linear forms -/

/-- The terms of a form can be told by their texts, and use only what `P` allows. -/
def Proper (P : Expr → Prop) (l : Linear) : Prop := l.All fun e => e.Factor ∧ e.Over P

variable {P : Expr → Prop} {l r : Linear}

theorem Proper.factors (h : l.Proper P) : l.All Expr.Factor := fun t ht => (h t ht).1

theorem Proper.over (h : l.Proper P) : l.All (Expr.Over P) := fun t ht => (h t ht).2

theorem Proper.toExpr (h : l.Proper P) : l.toExpr.WellFormed ∧ l.toExpr.Legible ∧ l.toExpr.Over P :=
  ⟨wellFormed_toExpr h.factors, legible_toExpr h.factors, over_toExpr h.over⟩

theorem Proper.add (hl : l.Proper P) (hr : r.Proper P) : (l.add r).Proper P := all_addScaled hl hr

theorem Proper.mul (hl : l.Proper P) (hr : r.Proper P) : (l.mul r).Proper P := by
  rw [Linear.mul]
  split
  · exact all_addScaled (all_ofConst 0) hl
  split
  · exact all_addScaled (all_ofConst 0) hr
  rename_i hconst _
  obtain ⟨hlw, hll, hlo⟩ := hl.toExpr
  obtain ⟨hrw, hrl, hro⟩ := hr.toExpr
  refine all_ofExpr ⟨⟨⟨hlw, hll⟩, ⟨hrw, hrl⟩, ?_⟩, Expr.over_mul.2 ⟨hlo, hro⟩⟩
  exact toExpr_ne_const hr.factors (by simpa using hconst)

/-- The form of a quotient by a positive divisor. -/
def floored (l : Linear) (d : Int64) : Linear :=
  if (l.rest d).isConst || d == 1 then l.quotient d
  else { l.quotient d with
    terms := addTerm (.binary .floordiv (l.rest d).toExpr (.const d)) 1 (l.quotient d).terms }

/-- The form of a remainder by a positive divisor. -/
def remaining (l : Linear) (d : Int64) : Linear :=
  if (l.rest d).isConst then ofConst (l.rest d).constant
  else if d == 1 then ofConst 0
  else ofExpr (.binary .mod (l.rest d).toExpr (.const d))

variable {d : Int64}

theorem floordiv_eq (l : Linear) (hd : 0 < d) : l.floordiv d = .ok (l.floored d) := by
  simp only [Linear.floordiv, if_neg (Word.ne_zero_of_pos hd), Expr.floordiv, floored]
  split <;> rfl

theorem mod_eq (l : Linear) (hd : 0 < d) : l.mod d = .ok (l.remaining d) := by
  simp only [Linear.mod, if_neg (Word.ne_zero_of_pos hd), Expr.mod, remaining]
  split
  · rfl
  split <;> rfl

theorem Proper.floored (h : l.Proper P) (hd : 0 < d) : (l.floored d).Proper P := by
  rw [Linear.floored]
  split
  · exact all_quotient h
  · obtain ⟨hw, hl, ho⟩ := Proper.toExpr (all_rest h)
    exact all_addTerm ⟨⟨⟨hw, hl⟩, d, hd, rfl⟩, Expr.over_binary.2 ⟨ho, Expr.over_const d⟩⟩
      (all_quotient h)

theorem Proper.remaining (h : l.Proper P) (hd : 0 < d) : (l.remaining d).Proper P := by
  rw [Linear.remaining]
  split
  · exact all_ofConst _
  split
  · exact all_ofConst _
  · obtain ⟨hw, hl, ho⟩ := Proper.toExpr (all_rest h)
    exact all_ofExpr ⟨⟨⟨hw, hl⟩, d, hd, rfl⟩, Expr.over_binary.2 ⟨ho, Expr.over_const d⟩⟩

end Linear

theorem linear_const (c : Int64) : (Expr.const c).linear = .ok (.ofConst c) := rfl

/-- The linear form of an operation, from those of both sides. -/
theorem linear_binary {op : Operation} {l r : Expr} {a b : Linear} (hl : l.linear = .ok a)
    (hr : r.linear = .ok b) : (Expr.binary op l r).linear = match op with
      | .add => .ok (a.add b)
      | .mul => .ok (a.mul b)
      | .floordiv => a.floordiv b.constant
      | .mod => a.mod b.constant
      | .unknown => .ok (Linear.ofConst 0) := by
  rw [Expr.linear, hl, hr]
  cases op <;> rfl

variable {P : Expr → Prop} {e : Expr}

/-- **A well-formed expression has a linear form**, whose terms use only what the expression uses.
It comes about from those of its parts. -/
theorem linear_along {motive : Expr → Linear → Prop} (hw : e.WellFormed) (ho : e.Over P)
    (dim : ∀ p, P (.dim p) → motive (.dim p) (.ofExpr (.dim p)))
    (sym : ∀ p, P (.sym p) → motive (.sym p) (.ofExpr (.sym p)))
    (const : ∀ c, motive (.const c) (.ofConst c))
    (add : ∀ l r a b, l.linear = .ok a → r.linear = .ok b → a.Proper P → b.Proper P → motive l a →
      motive r b → motive (.binary .add l r) (a.add b))
    (mul : ∀ l r a b, l.linear = .ok a → r.linear = .ok b → a.Proper P → b.Proper P → motive l a →
      motive r b → motive (.binary .mul l r) (a.mul b))
    (floordiv : ∀ l a c, 0 < c → l.linear = .ok a → a.Proper P → motive l a →
      motive (.binary .floordiv l (.const c)) (a.floored c))
    (mod : ∀ l a c, 0 < c → motive l a → motive (.binary .mod l (.const c)) (a.remaining c)) :
    ∃ f, e.linear = .ok f ∧ f.Proper P ∧ motive e f := by
  refine Expr.WellFormed.along hw ho
    (fun p hp => ⟨_, rfl, Linear.all_ofExpr ⟨trivial, Expr.over_dim hp⟩, dim p hp⟩)
    (fun p hp => ⟨_, rfl, Linear.all_ofExpr ⟨trivial, Expr.over_sym hp⟩, sym p hp⟩)
    (fun c => ⟨_, rfl, Linear.all_ofConst c, const c⟩) ?_ ?_ ?_ ?_
  · rintro l r ⟨a, hl, ha, hma⟩ ⟨b, hr, hb, hmb⟩
    exact ⟨_, linear_binary hl hr, ha.add hb, add l r a b hl hr ha hb hma hmb⟩
  · rintro l r ⟨a, hl, ha, hma⟩ ⟨b, hr, hb, hmb⟩
    exact ⟨_, linear_binary hl hr, ha.mul hb, mul l r a b hl hr ha hb hma hmb⟩
  · rintro l c hc ⟨a, hl, ha, hma⟩
    exact ⟨_, (linear_binary hl (linear_const c)).trans (a.floordiv_eq hc), ha.floored hc,
      floordiv l a c hc hl ha hma⟩
  · rintro l c hc ⟨a, hl, ha, hma⟩
    exact ⟨_, (linear_binary hl (linear_const c)).trans (a.mod_eq hc), ha.remaining hc,
      mod l a c hc hma⟩

theorem linear_proper (hw : e.WellFormed) (ho : e.Over P) :
    ∃ l, e.linear = .ok l ∧ l.Proper P := by
  obtain ⟨f, hf, hp, -⟩ := linear_along (motive := fun _ _ => True) hw ho (by simp)
    (by simp) (by simp) (by simp) (by simp) (by simp) (by simp)
  exact ⟨f, hf, hp⟩

variable {f : Linear}

/-- What is known of some form of an expression is known of its form. -/
theorem of_linear {P Q : Linear → Prop} (h : e.linear = .ok f)
    (hg : ∃ g, e.linear = .ok g ∧ P g ∧ Q g) : Q f := by
  obtain ⟨g, hg, -, hq⟩ := hg
  exact Except.ok.inj (hg.symm.trans h) ▸ hq

/-! ## 5. Values -/

/-- A ring in which expressions have values, with the numbers of words, dimensions and symbols. -/
structure Model (R : Type) [CommRing R] where
  word : Int64 → R
  dim : Int64 → R
  sym : Int64 → R
  quot : R → R → R
  rem : R → R → R
  word_zero : word 0 = 0
  word_one : word 1 = 1

variable {R : Type} [CommRing R] [DecidableEq R] (M : Model R)

/-- The value of an expression. -/
def Expr.valueIn : Expr → R
  | dim p => M.dim p
  | sym p => M.sym p
  | const c => M.word c
  | binary .add l r => l.valueIn + r.valueIn
  | binary .mul l r => l.valueIn * r.valueIn
  | binary .floordiv l r => M.quot l.valueIn r.valueIn
  | binary .mod l r => M.rem l.valueIn r.valueIn
  | binary .unknown _ _ => 0

namespace Linear

/-- The value of a term. -/
def termValue (t : Term) : R := M.word t.coef * t.expr.valueIn M

/-- The value of a linear form. -/
def valueIn (l : Linear) : R := (l.terms.map (termValue M)).sum + M.word l.constant

/-- The sum with a term of the same text does not wrap around. -/
def addsExactly (word : Int64 → R) (e : Expr) (c : Int64) : List Term → Bool
  | [] => true
  | t :: ts =>
    if t.key = e.text then word (t.coef + c) = word t.coef + word c else addsExactly word e c ts

/-- No coefficient wraps around while multiples of the terms `ms` are added to the terms `ts`. -/
def scalesExactly (word : Int64 → R) (s : Int64) : List Term → List Term → Bool
  | [], _ => true
  | m :: ms, ts =>
    word (m.coef * s) = word m.coef * word s && addsExactly word m.expr (m.coef * s) ts &&
      scalesExactly word s ms (addTerm m.expr (m.coef * s) ts)

/-- Nothing wraps around in the sum with a multiple. -/
def addScaledExactly (word : Int64 → R) (l m : Linear) (s : Int64) : Bool :=
  scalesExactly word s m.terms l.terms && word (m.constant * s) = word m.constant * word s &&
    word (l.constant + m.constant * s) = word l.constant + word (m.constant * s)

/-- Nothing wraps around in a product. -/
def mulExactly (word : Int64 → R) (l r : Linear) : Bool :=
  if r.isConst then (ofConst 0).addScaledExactly word l r.constant
  else if l.isConst then (ofConst 0).addScaledExactly word r l.constant
  else true

/-- Nothing wraps around when the quotient of the rest is added to that of the divisible part. -/
def floordivExactly (word : Int64 → R) (l : Linear) (d : Int64) : Bool :=
  (l.rest d).isConst || d == 1 ||
    addsExactly word (.binary .floordiv (l.rest d).toExpr (.const d)) 1 (l.quotient d).terms

end Linear

/-- Nothing wraps around while the linear form of an expression is built. -/
def Expr.buildsExactly (word : Int64 → R) : Expr → Bool
  | binary op l r => l.buildsExactly word && r.buildsExactly word &&
    match op, l.linear, r.linear with
    | .add, .ok a, .ok b => a.addScaledExactly word b 1
    | .mul, .ok a, .ok b => a.mulExactly word b
    | .floordiv, .ok a, .ok b => a.floordivExactly word b.constant
    | _, _, _ => true
  | _ => true

namespace Linear

variable {M} {ts : List Term} {s : Int64}

theorem sum_addTerm {e : Expr} {c : Int64} (he : e.Legible) (hts : ∀ t ∈ ts, t.expr.Legible)
    (hx : addsExactly M.word e c ts) :
    ((addTerm e c ts).map (termValue M)).sum = (ts.map (termValue M)).sum + M.word c *
      e.valueIn M := by
  induction ts with
  | nil =>
    rw [addTerm]
    split
    · next h => simp [h, M.word_zero]
    · simp [termValue]
  | cons t ts ih =>
    rw [addsExactly] at hx
    rw [addTerm]
    split at hx
    · next hkey =>
      have hx := of_decide_eq_true hx
      -- terms of one text are one and the same
      have hexpr : t.expr = e := text_injective (hts t mem_cons_self) he hkey
      rw [if_pos hkey]
      split
      · next hzero =>
        rw [hzero, M.word_zero] at hx
        rw [map_cons, sum_cons, termValue, hexpr]
        linear_combination hx * e.valueIn M
      · simp only [map_cons, sum_cons, termValue, hexpr, hx]
        ring
    · next hkey =>
      rw [if_neg hkey, map_cons, sum_cons, ih (fun s hs => hts s (mem_cons_of_mem t hs)) hx,
        map_cons, sum_cons]
      ring

theorem sum_addScaled {ms : List Term} (hms : ∀ t ∈ ms, t.expr.Legible)
    (hts : ∀ t ∈ ts, t.expr.Legible) (hx : scalesExactly M.word s ms ts) :
    ((ms.foldl (fun ts t => addTerm t.expr (t.coef * s) ts) ts).map (termValue M)).sum =
      (ts.map (termValue M)).sum + (ms.map (termValue M)).sum * M.word s := by
  induction ms generalizing ts with
  | nil => simp
  | cons m ms ih =>
    simp only [scalesExactly, Bool.and_eq_true, decide_eq_true_eq] at hx
    obtain ⟨⟨hcoef, hadd⟩, hrest⟩ := hx
    have hm := hms m mem_cons_self
    rw [foldl_cons, ih (fun t ht => hms t (mem_cons_of_mem m ht)) ?_ hrest,
      sum_addTerm hm hts hadd, map_cons, sum_cons, termValue, hcoef]
    · ring
    · exact all_addTerm (Q := Expr.Legible) (k := 0) (l := 0) hm hts

variable {P : Expr → Prop} {l r : Linear}

theorem Proper.legible (h : l.Proper P) (t : Term) (ht : t ∈ l.terms) : t.expr.Legible :=
  (h t ht).1.legible

theorem Proper.valueIn_addScaled (hl : l.Proper P) (hr : r.Proper P)
    (hx : l.addScaledExactly M.word r s) :
    (l.addScaled r s).valueIn M = l.valueIn M + r.valueIn M * M.word s := by
  simp only [addScaledExactly, Bool.and_eq_true, decide_eq_true_eq] at hx
  obtain ⟨⟨hterms, hmul⟩, hadd⟩ := hx
  rw [valueIn, addScaled, sum_addScaled hr.legible hl.legible hterms, hadd, hmul, valueIn, valueIn]
  ring

omit [DecidableEq R] in
theorem valueIn_ofConst (c : Int64) : (ofConst c).valueIn M = M.word c := by simp [valueIn, ofConst]

omit [DecidableEq R] in
theorem valueIn_ofExpr (e : Expr) : (ofExpr e).valueIn M = e.valueIn M := by
  simp [valueIn, ofExpr, addTerm, termValue, M.word_one, M.word_zero]

omit [DecidableEq R] in
theorem valueIn_of_isConst (h : l.isConst = true) : l.valueIn M = M.word l.constant := by
  simp [valueIn, isConst_iff.1 h]

omit [DecidableEq R] in
theorem valueIn_termExpr (t : Term) : (termExpr t).valueIn M = termValue M t := by
  rw [termExpr]
  split
  · next h => rw [termValue, h, M.word_one, one_mul]
  · rw [Expr.mul, Expr.valueIn, termValue, mul_comm]
    rfl

omit [DecidableEq R] in
theorem valueIn_foldl_add (e : Expr) (es : List Expr) :
    (es.foldl Expr.add e).valueIn M = e.valueIn M + (es.map (Expr.valueIn M)).sum := by
  induction es generalizing e with
  | nil => simp
  | cons x es ih =>
    rw [foldl_cons, ih, Expr.add, Expr.valueIn, map_cons, sum_cons, add_assoc]

omit [DecidableEq R] in
/-- A linear form is written as an expression of the same value. -/
theorem valueIn_toExpr (l : Linear) : l.toExpr.valueIn M = l.valueIn M := by
  have hsum : (l.terms.map (termValue M)).sum =
      ((l.sortedTerms.map termExpr).map (Expr.valueIn M)).sum := by
    rw [map_map, ← (l.sortedTerms_perm.map (termValue M)).sum_eq]
    congr 1
    exact map_congr_left fun t _ => (valueIn_termExpr t).symm
  rw [valueIn, hsum, toExpr]
  cases l.sortedTerms.map termExpr with
  | nil => simp [Expr.valueIn]
  | cons e es =>
    simp only [map_cons, sum_cons]
    split
    · next h => rw [valueIn_foldl_add, h, M.word_zero, add_zero]
    · rw [Expr.add, Expr.valueIn, valueIn_foldl_add]
      rfl

theorem Proper.valueIn_add (hl : l.Proper P) (hr : r.Proper P)
    (hx : l.addScaledExactly M.word r 1) :
    (l.add r).valueIn M = l.valueIn M + r.valueIn M := by
  rw [Linear.add, hl.valueIn_addScaled hr hx, M.word_one, mul_one]

theorem Proper.valueIn_mul (hl : l.Proper P) (hr : r.Proper P) (hx : l.mulExactly M.word r) :
    (l.mul r).valueIn M = l.valueIn M * r.valueIn M := by
  have hzero : (ofConst 0).Proper P := all_ofConst 0
  rw [mulExactly] at hx
  rw [Linear.mul]
  split at hx
  · next h =>
    rw [if_pos h, hzero.valueIn_addScaled hl hx, valueIn_ofConst, M.word_zero, valueIn_of_isConst h]
    ring
  next h =>
  rw [if_neg h]
  split at hx
  · next h =>
    rw [if_pos h, hzero.valueIn_addScaled hr hx, valueIn_ofConst, M.word_zero, valueIn_of_isConst h]
    ring
  next h =>
  rw [if_neg h, valueIn_ofExpr, Expr.mul, Expr.valueIn, valueIn_toExpr, valueIn_toExpr]

end Linear

/-! ## 6. The integers -/

/-- The word at a position; zero if there is none. -/
def wordAt (ns : List Int64) (p : Int64) : Int64 := (Word.at? ns p).getD 0

/-- The integers, at given dimensions and symbols. -/
def integers (dims syms : List Int64) : Model ℤ where
  word := Int64.toInt
  dim p := (wordAt dims p).toInt
  sym p := (wordAt syms p).toInt
  quot := (· / ·)
  rem := (· % ·)
  word_zero := rfl
  word_one := rfl

variable {dims syms : List Int64}

namespace Linear

variable {P : Expr → Prop} {l : Linear} {d : Int64}

/-- A form is the divisor times its quotient, and the rest. -/
theorem valueIn_split (l : Linear) (hd : 0 < d) : l.valueIn (integers dims syms) =
    d.toInt * (l.quotient d).valueIn (integers dims syms) + (l.rest d).valueIn
      (integers dims syms) := by
  have hterms := sum_map_filter_add_sum_map_filter_not (fun t : Term => t.coef % d = 0)
    (termValue (integers dims syms)) l.terms
  have hquotient : ((l.terms.filter fun t => decide (t.coef % d = 0)).map
        (termValue (integers dims syms))).sum =
      d.toInt * ((l.quotient d).terms.map (termValue (integers dims syms))).sum := by
    rw [quotient, map_map, ← sum_map_mul_left]
    congr 1
    refine map_congr_left fun t ht => ?_
    have hdvd := Word.mod_eq_zero_iff_dvd.1 (of_decide_eq_true (mem_filter.1 ht).2)
    have hcoef : (t.coef / d).toInt = t.coef.toInt / d.toInt := by
      rw [Word.toInt_div_of_pos hd, if_pos (.inr hdvd), add_zero]
    simp only [termValue, integers, Function.comp_apply, hcoef]
    rw [← mul_assoc, Int.mul_ediv_cancel' hdvd]
  have hrest : (l.terms.filter fun t => decide ¬ t.coef % d = 0) = (l.rest d).terms := by
    exact filter_congr fun t _ => by simp [bne, beq_eq_decide]
  have hconst : l.constant.toInt = d.toInt * (Word.floorDiv l.constant d).toInt +
      (Word.floorMod l.constant d).toInt := by
    rw [Word.toInt_floorDiv hd, Word.toInt_floorMod hd, Int.mul_ediv_add_emod]
  rw [hquotient, hrest] at hterms
  simp only [valueIn, ← hterms]
  change _ + l.constant.toInt = d.toInt * (_ + (Word.floorDiv l.constant d).toInt) +
    (_ + (Word.floorMod l.constant d).toInt)
  rw [hconst]
  ring

/-- Nothing is left of a quotient by one. -/
theorem rest_one (l : Linear) : (l.rest 1).isConst = true := by
  rw [isConst_iff, rest, filter_eq_nil_iff]
  intro t _
  simp

theorem rest_valueIn_of_isConst (hd : 0 < d) (h : (l.rest d).isConst = true) :
    (l.rest d).valueIn (integers dims syms) = l.constant.toInt % d.toInt := by
  rw [valueIn_of_isConst h, ← Word.toInt_floorMod hd]
  rfl

/-- The form of a quotient has the value of the quotient. -/
theorem Proper.valueIn_floored (hl : l.Proper P) (hd : 0 < d)
    (hx : l.floordivExactly Int64.toInt d) :
    (l.floored d).valueIn (integers dims syms) = l.valueIn (integers dims syms) / d.toInt := by
  have hpos := Word.toInt_pos hd
  rw [l.valueIn_split hd, Int.mul_add_ediv_left _ _ hpos.ne', Linear.floored]
  rw [floordivExactly] at hx
  split
  · next hcond =>
    have hconst : (l.rest d).isConst = true := by
      rcases Bool.or_eq_true_iff.1 hcond with hconst | hone
      · exact hconst
      · rw [eq_of_beq hone]
        exact l.rest_one
    rw [rest_valueIn_of_isConst hd hconst, Int.ediv_eq_zero_of_lt (Int.emod_nonneg _ hpos.ne')
      (Int.emod_lt_of_pos _ hpos), add_zero]
  · next hcond =>
    rw [Bool.or_eq_true_iff, or_iff_right hcond] at hx
    have hr : (l.rest d).Proper P := all_rest hl
    have hq : (l.quotient d).Proper P := all_quotient hl
    have hlegible : (Expr.binary .floordiv (l.rest d).toExpr (.const d)).Legible :=
      ⟨legible_toExpr hr.factors, d, rfl⟩
    have hsum := sum_addTerm (M := integers dims syms) hlegible hq.legible hx
    simp only [valueIn, hsum, Expr.valueIn, valueIn_toExpr]
    simp only [integers, Int64.toInt_one]
    ring

/-- The form of a remainder has the value of the remainder. -/
theorem valueIn_remaining (l : Linear) (hd : 0 < d) :
    (l.remaining d).valueIn (integers dims syms) = l.valueIn (integers dims syms) % d.toInt := by
  rw [l.valueIn_split hd, Int.mul_add_emod_self_left, remaining]
  split
  · next hconst =>
    rw [rest_valueIn_of_isConst hd hconst, Int.emod_emod_of_dvd _ (dvd_refl _), valueIn_ofConst,
      ← Word.toInt_floorMod hd]
    rfl
  split
  · next hone =>
    rw [eq_of_beq hone]
    simp [valueIn_ofConst, integers]
  · rw [valueIn_ofExpr, Expr.valueIn, valueIn_toExpr]
    rfl

end Linear

/-- **In the integers the linear form has the value of the expression**, if nothing wraps around
while it is built. -/
theorem linear_valueIn (dims syms : List Int64) (hw : e.WellFormed)
    (hx : e.buildsExactly Int64.toInt) (h : e.linear = .ok f) :
    f.valueIn (integers dims syms) = e.valueIn (integers dims syms) := by
  refine of_linear h (linear_along (motive := fun e f => e.buildsExactly Int64.toInt →
    f.valueIn (integers dims syms) = e.valueIn (integers dims syms)) hw e.over_true
    (fun _ _ _ => Linear.valueIn_ofExpr _) (fun _ _ _ => Linear.valueIn_ofExpr _)
    (fun c _ => Linear.valueIn_ofConst c) ?_ ?_ ?_ ?_) hx
  all_goals clear hw hx h
  · intro l r a b hl hr ha hb ihl ihr hx
    simp only [Expr.buildsExactly, Bool.and_eq_true, hl, hr] at hx
    rw [ha.valueIn_add hb hx.2, ihl hx.1.1, ihr hx.1.2, Expr.valueIn]
  · intro l r a b hl hr ha hb ihl ihr hx
    simp only [Expr.buildsExactly, Bool.and_eq_true, hl, hr] at hx
    rw [ha.valueIn_mul hb hx.2, ihl hx.1.1, ihr hx.1.2, Expr.valueIn]
  · intro l a c hc hl ha ihl hx
    simp only [Expr.buildsExactly, Bool.and_eq_true, hl] at hx
    rw [ha.valueIn_floored hc hx.2, ihl hx.1.1]
    rfl
  · intro l a c hc ihl hx
    simp only [Expr.buildsExactly, Bool.and_eq_true] at hx
    rw [a.valueIn_remaining hc, ihl hx.1.1]
    rfl

/-! ## 7. Words that wrap around -/

/-- The words as bit vectors, whose sums and products wrap around.  Quotients are left out. -/
def bits (dims syms : List Int64) : Model (BitVec 64) where
  word := Int64.toBitVec
  dim p := (wordAt dims p).toBitVec
  sym p := (wordAt syms p).toBitVec
  quot _ _ := 0
  rem _ _ := 0
  word_zero := rfl
  word_one := rfl

namespace Linear

theorem addsExactly_bits (e : Expr) (c : Int64) (ts : List Term) :
    addsExactly Int64.toBitVec e c ts := by
  induction ts with
  | nil => rfl
  | cons t ts ih =>
    rw [addsExactly]
    split
    · exact decide_eq_true Int64.toBitVec_add
    · exact ih

theorem scalesExactly_bits (s : Int64) (ms ts : List Term) :
    scalesExactly Int64.toBitVec s ms ts := by
  induction ms generalizing ts with
  | nil => rfl
  | cons m ms ih => simp [scalesExactly, addsExactly_bits, ih]

theorem addScaledExactly_bits (l m : Linear) (s : Int64) :
    l.addScaledExactly Int64.toBitVec m s := by
  simp [addScaledExactly, scalesExactly_bits]

theorem mulExactly_bits (l m : Linear) : l.mulExactly Int64.toBitVec m := by
  simp [mulExactly, addScaledExactly_bits]

end Linear

theorem Expr.Polynomial.wellFormed (h : e.Polynomial) : e.WellFormed := by
  induction e with
  | binary op l r ihl ihr =>
    cases op with
    | add => exact ⟨ihl h.1, ihr h.2⟩
    | mul => exact ⟨ihl h.1, ihr h.2⟩
    | _ => exact h.elim
  | _ => trivial

/-- **Without quotients the linear form has the value of the expression**, also where it wraps
around. -/
theorem linear_valueIn_words (dims syms : List Int64) (hp : e.Polynomial) (h : e.linear = .ok f) :
    f.valueIn (bits dims syms) = e.valueIn (bits dims syms) := by
  refine of_linear h (linear_along (motive := fun e f => e.Polynomial →
    f.valueIn (bits dims syms) = e.valueIn (bits dims syms)) hp.wellFormed e.over_true
    (fun _ _ _ => Linear.valueIn_ofExpr _) (fun _ _ _ => Linear.valueIn_ofExpr _)
    (fun c _ => Linear.valueIn_ofConst c) ?_ ?_ (fun _ _ _ _ _ _ _ hp => hp.elim)
    (fun _ _ _ _ _ hp => hp.elim)) hp
  · intro l r a b _ _ ha hb ihl ihr hp
    rw [ha.valueIn_add hb (Linear.addScaledExactly_bits a b 1), ihl hp.1, ihr hp.2, Expr.valueIn]
  · intro l r a b _ _ ha hb ihl ihr hp
    rw [ha.valueIn_mul hb (Linear.mulExactly_bits a b), ihl hp.1, ihr hp.2, Expr.valueIn]

end ConvNest.Affine
