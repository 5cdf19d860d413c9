/-
# Simplification keeps the value

The value of an expression in words is its value in the integers as long as no operation wraps
around (`exact`), and its value in bit vectors if there are no quotients.  Linear forms keep both,
so the simplified expression has the value of the expression (`simplify_eval`).
-/
import ConvNest.Proofs.LinearForm
import Mathlib.Algebra.Group.Ext
import Mathlib.Data.List.Permutation

namespace ConvNest.Affine

/-- The result of an operation on two words is that on integers.  A quotient or remainder by a
positive divisor always is. -/
def Operation.fits : Operation → Int64 → Int64 → Bool
  | .add, a, b => (a + b).toInt = a.toInt + b.toInt
  | .mul, a, b => (a * b).toInt = a.toInt * b.toInt
  | _, _, _ => true

/-- No operation wraps around when the expression is evaluated. -/
def Expr.exact (dims syms : List Int64) : Expr → Bool
  | binary op l r => l.exact dims syms && r.exact dims syms &&
    match l.eval dims syms, r.eval dims syms with
    | .ok a, .ok b => op.fits a b
    | _, _ => true
  | _ => true

variable {dims syms : List Int64} {e : Expr} {v a d : Int64} {f : Linear}

/-! ## 1. Evaluation -/

/-- What an operation gives on two words. -/
def Operation.apply (l r : Expr) : Operation → Int64 → Int64 → Except Fault Int64
  | .add, a, b => .ok (a + b)
  | .mul, a, b => .ok (a * b)
  | .floordiv, a, b => divide a b
  | .mod, a, b => remainder a b
  | .unknown, _, _ => .error (.unknownOperation (.binary .unknown l r))

/-- An operation is evaluated on the values of both sides. -/
theorem eval_binary_eq_ok {op : Operation} {l r : Expr} :
    (Expr.binary op l r).eval dims syms = .ok v ↔
      ∃ a b, l.eval dims syms = .ok a ∧ r.eval dims syms = .ok b ∧ op.apply l r a b = .ok v := by
  rw [Expr.eval]
  cases hl : l.eval dims syms with
  | error f => simp [bind, Except.bind]
  | ok a =>
    cases hr : r.eval dims syms with
    | error f => simp [bind, Except.bind]
    | ok b => cases op <;> simp [bind, Except.bind, pure, Except.pure, Operation.apply]

theorem divide_of_pos (hd : 0 < d) : divide a d = .ok (Word.floorDiv a d) := by
  rw [divide, if_neg (Word.ne_zero_of_pos hd)]

theorem remainder_of_pos (hd : 0 < d) : remainder a d = .ok (Word.floorMod a d) := by
  rw [remainder, if_neg (Word.ne_zero_of_pos hd)]

/-- The word that is picked is the one at the position. -/
theorem wordAt_of_pick {ns : List Int64} {p : Int64} (h : pick ns p = .ok v) : wordAt ns p = v := by
  rw [pick] at h
  rw [wordAt]
  cases hp : Word.at? ns p with
  | none => simp [hp] at h
  | some n => simpa [hp] using h

/-- The value of an expression is its value in the integers, if nothing wraps around. -/
theorem toInt_of_eval (hw : e.WellFormed) (hx : e.exact dims syms) (h : e.eval dims syms = .ok v) :
    v.toInt = e.valueIn (integers dims syms) := by
  refine Expr.WellFormed.along (motive := fun e => ∀ v, e.exact dims syms →
    e.eval dims syms = .ok v → v.toInt = e.valueIn (integers dims syms)) hw e.over_true
    (fun p _ v _ h => congrArg Int64.toInt (wordAt_of_pick h).symm)
    (fun p _ v _ h => congrArg Int64.toInt (wordAt_of_pick h).symm)
    (fun c v _ h => congrArg Int64.toInt (Except.ok.inj h).symm) (fun l r ihl ihr => ?_)
    (fun l r ihl ihr => ?_) (fun l c hc ihl => ?_) (fun l c hc ihl => ?_) v hx h
  all_goals
    intro v hx h
    obtain ⟨a, b, hl, hr, hop⟩ := eval_binary_eq_ok.1 h
    simp only [Expr.exact, hl, hr, Bool.and_eq_true] at hx
    obtain ⟨⟨hxl, hxr⟩, hfits⟩ := hx
  · cases hop
    rw [Expr.valueIn, ← ihl a hxl hl, ← ihr b hxr hr]
    exact of_decide_eq_true hfits
  · cases hop
    rw [Expr.valueIn, ← ihl a hxl hl, ← ihr b hxr hr]
    exact of_decide_eq_true hfits
  · cases hr
    cases ((divide_of_pos hc).symm.trans hop)
    rw [Expr.valueIn, ← ihl a hxl hl, Word.toInt_floorDiv hc]
    rfl
  · cases hr
    cases ((remainder_of_pos hc).symm.trans hop)
    rw [Expr.valueIn, ← ihl a hxl hl, Word.toInt_floorMod hc]
    rfl

/-- Without quotients the value of an expression is its value in the bit vectors. -/
theorem toBitVec_of_eval (hp : e.Polynomial) (h : e.eval dims syms = .ok v) :
    v.toBitVec = e.valueIn (bits dims syms) := by
  induction e generalizing v with
  | dim p => exact congrArg Int64.toBitVec (wordAt_of_pick h).symm
  | sym p => exact congrArg Int64.toBitVec (wordAt_of_pick h).symm
  | const c => exact congrArg Int64.toBitVec (Except.ok.inj h).symm
  | binary op l r ihl ihr =>
    obtain ⟨a, b, hl, hr, hop⟩ := eval_binary_eq_ok.1 h
    cases op with
    | add =>
      cases hop
      rw [Expr.valueIn, ← ihl hp.1 hl, ← ihr hp.2 hr, Int64.toBitVec_add]
    | mul =>
      cases hop
      rw [Expr.valueIn, ← ihl hp.1 hl, ← ihr hp.2 hr, Int64.toBitVec_mul]
    | _ => exact hp.elim

/-- What has a value has dimensions and symbols with values. -/
theorem over_of_eval (h : e.eval dims syms = .ok v) :
    e.Over fun x => ∃ n, x.eval dims syms = .ok n := by
  induction e generalizing v with
  | dim p => exact Expr.over_dim ⟨v, h⟩
  | sym p => exact Expr.over_sym ⟨v, h⟩
  | const c => exact Expr.over_const c
  | binary op l r ihl ihr =>
    obtain ⟨a, b, hl, hr, -⟩ := eval_binary_eq_ok.1 h
    exact Expr.over_binary.2 ⟨ihl hl, ihr hr⟩

/-- A well-formed expression has a value if its dimensions and symbols do. -/
theorem eval_of_over (hw : e.WellFormed) (ho : e.Over fun x => ∃ n, x.eval dims syms = .ok n) :
    ∃ v, e.eval dims syms = .ok v := by
  refine Expr.WellFormed.along hw ho (fun _ h => h) (fun _ h => h) (fun c => ⟨c, rfl⟩) ?_ ?_ ?_ ?_
  · rintro l r ⟨a, ha⟩ ⟨b, hb⟩
    exact ⟨_, eval_binary_eq_ok.2 ⟨a, b, ha, hb, rfl⟩⟩
  · rintro l r ⟨a, ha⟩ ⟨b, hb⟩
    exact ⟨_, eval_binary_eq_ok.2 ⟨a, b, ha, hb, rfl⟩⟩
  · rintro l c hc ⟨a, ha⟩
    exact ⟨_, eval_binary_eq_ok.2 ⟨a, c, ha, rfl, divide_of_pos hc⟩⟩
  · rintro l c hc ⟨a, ha⟩
    exact ⟨_, eval_binary_eq_ok.2 ⟨a, c, ha, rfl, remainder_of_pos hc⟩⟩

/-! ## 2. Simplification -/

namespace Linear

variable {l r : Linear}

theorem polynomial_termExpr {t : Term} (h : t.expr.Polynomial) : (termExpr t).Polynomial := by
  rw [termExpr]
  split
  · exact h
  · exact ⟨h, trivial⟩

theorem polynomial_toExpr (h : l.All Expr.Polynomial) : l.toExpr.Polynomial :=
  toExpr_induction (fun _ _ => trivial) (fun t ht => polynomial_termExpr (h t ht))
    (fun _ he t ht => ⟨he, polynomial_termExpr (h t ht)⟩) fun _ he _ => ⟨he, trivial⟩

theorem all_polynomial_mul (hl : l.All Expr.Polynomial) (hr : r.All Expr.Polynomial) :
    (l.mul r).All Expr.Polynomial := by
  rw [Linear.mul]
  split
  · exact all_addScaled (all_ofConst 0) hl
  split
  · exact all_addScaled (all_ofConst 0) hr
  · exact all_ofExpr ⟨polynomial_toExpr hl, polynomial_toExpr hr⟩

end Linear

/-- The linear form of an expression without quotients has no quotients either. -/
theorem linear_polynomial (hp : e.Polynomial) (h : e.linear = .ok f) :
    f.All Expr.Polynomial :=
  of_linear h (linear_along (motive := fun e f => e.Polynomial → f.All Expr.Polynomial)
    hp.wellFormed e.over_true
    (fun _ _ _ => Linear.all_ofExpr trivial) (fun _ _ _ => Linear.all_ofExpr trivial)
    (fun c _ => Linear.all_ofConst c)
    (fun _ _ _ _ _ _ _ _ ihl ihr hp => Linear.all_addScaled (ihl hp.1) (ihr hp.2))
    (fun _ _ _ _ _ _ _ _ ihl ihr hp => Linear.all_polynomial_mul (ihl hp.1) (ihr hp.2))
    (fun _ _ _ _ _ _ _ hp => hp.elim) (fun _ _ _ _ _ hp => hp.elim)) hp

theorem simplify_of_linear (h : e.linear = .ok f) : e.simplify = .ok f.toExpr := by
  rw [Expr.simplify, h]
  rfl

/-- **Simplification keeps the value.**  A well-formed expression is simplified to one that uses no
other dimensions and symbols.  Where the expression has a value, the simplified one has the same, if
no operation wraps around in both evaluations and in building the linear form, or if there are only
sums and products, which may wrap around. -/
theorem simplify_eval {e : Expr} (hw : e.WellFormed) : ∃ s, e.simplify = .ok s ∧
    (∀ p, .dim p ∈ s.subexprs → .dim p ∈ e.subexprs) ∧
    (∀ p, .sym p ∈ s.subexprs → .sym p ∈ e.subexprs) ∧
    ∀ dims syms v, e.eval dims syms = .ok v →
      (e.exact dims syms ∧ s.exact dims syms ∧ e.buildsExactly Int64.toInt) ∨ e.Polynomial →
      s.eval dims syms = .ok v := by
  have huses : e.Over (· ∈ e.subexprs) := fun p => ⟨id, id⟩
  obtain ⟨f, hf, hproper⟩ := linear_proper hw huses
  obtain ⟨hs, -, ho⟩ := hproper.toExpr
  refine ⟨f.toExpr, simplify_of_linear hf, fun p => (ho p).1, fun p => (ho p).2, ?_⟩
  intro dims syms v hv hcase
  obtain ⟨w, hw'⟩ : ∃ w, f.toExpr.eval dims syms = .ok w := by
    have hvalues := over_of_eval hv
    exact eval_of_over hs fun p =>
      ⟨fun hp => (hvalues p).1 ((ho p).1 hp), fun hp => (hvalues p).2 ((ho p).2 hp)⟩
  rw [hw']
  congr 1
  rcases hcase with ⟨hx, hxs, hbuilds⟩ | hp
  · have heq := linear_valueIn dims syms hw hbuilds hf
    rw [← Linear.valueIn_toExpr, ← toInt_of_eval hw hx hv, ← toInt_of_eval hs hxs hw'] at heq
    exact Int64.toInt_inj.1 heq
  · have heq := linear_valueIn_words dims syms hp hf
    rw [← Linear.valueIn_toExpr, ← toBitVec_of_eval hp hv,
      ← toBitVec_of_eval (Linear.polynomial_toExpr (linear_polynomial hp hf)) hw'] at heq
    exact Int64.toBitVec_inj.1 heq

/-- `(d0 * 8 + s0) floordiv 4` at `d0 = 7` and `s0 = -5`: the negative symbol stays under the
quotient. -/
theorem simplify_eval_quotient : ∃ s, (Expr.binary .floordiv
      (.add (.mul (.dim 0) (.const 8)) (.sym 0)) (.const 4)).simplify = .ok s ∧
    s.eval [7] [-5] = .ok 12 := by
  obtain ⟨s, hs, -, -, h⟩ := simplify_eval (e := .binary .floordiv
    (.add (.mul (.dim 0) (.const 8)) (.sym 0)) (.const 4)) ⟨⟨⟨trivial, trivial⟩, trivial⟩, 4, by
    decide, rfl⟩
  have hs' : (Expr.binary .floordiv (.add (.mul (.dim 0) (.const 8)) (.sym 0))
    (.const 4)).simplify =
      .ok (.add (.mul (.dim 0) (.const 2)) (.binary .floordiv (.sym 0) (.const 4))) := by cbv
  obtain rfl := Except.ok.inj (hs'.symm.trans hs)
  exact ⟨_, hs, h [7] [-5] 12 (by cbv) (.inl ⟨by cbv, by cbv, by cbv⟩)⟩

end ConvNest.Affine
