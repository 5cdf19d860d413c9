/-
# Substitution in index expressions

`replace` looks dimensions and symbols up in tables, and may fail at a position that a table does
not have.  Where it does not fail it is a substitution (`replace_eq_subst`), and what a substitution
does is known from what it does to dimensions and symbols: to values, in words and in the integers,
to what is exact, and to what occurs.

An expression is steady at some dimensions and symbols if nothing wraps around while it is
simplified, nor when the simplified one is evaluated.  The simplified expression then has the value
in the integers of the expression itself (`Steady.simplify`).
-/
import ConvNest.Proofs.CanonicalForm

namespace ConvNest.Affine

namespace Expr

/-! ## 1. Substitution -/

/-- The expression with an expression in the place of each dimension and symbol. -/
def subst (δ σ : Int64 → Expr) : Expr → Expr
  | dim p => δ p
  | sym p => σ p
  | const c => const c
  | binary op l r => binary op (l.subst δ σ) (r.subst δ σ)

variable {δ σ : Int64 → Expr} {e l r l' r' : Expr} {dims syms dims' syms' : List Int64}
  {P Q : Expr → Prop} {ds ss : List (Option Expr)} {op : Operation}
variable {p : Int64}

theorem Over.mono (h : e.Over P) (hpq : ∀ x, P x → Q x) : e.Over Q :=
  fun p => ⟨fun hp => hpq _ ((h p).1 hp), fun hp => hpq _ ((h p).2 hp)⟩

theorem Over.dim (h : (dim p).Over P) : P (dim p) := (h p).1 (by simp [subexprs])

theorem Over.sym (h : (sym p).Over P) : P (sym p) := (h p).2 (by simp [subexprs])

/-- What holds of the dimensions and symbols of an expression holds of it, if operations keep it. -/
theorem Over.along (h : e.Over P) (hconst : ∀ c, P (const c))
    (hbinary : ∀ op l r, P l → P r → P (binary op l r)) : P e := by
  induction e with
  | dim p => exact h.dim
  | sym p => exact h.sym
  | const c => exact hconst c
  | binary op l r ihl ihr =>
    obtain ⟨hl, hr⟩ := over_binary.1 h
    exact hbinary op l r (ihl hl) (ihr hr)

theorem replace_binary (hl : l.replace ds ss = .ok l') (hr : r.replace ds ss = .ok r') :
    (binary op l r).replace ds ss = .ok (binary op l' r') := by
  rw [replace, hl, hr]
  rfl

/-- Where all positions are found, a replacement is a substitution. -/
theorem replace_eq_subst (h : e.Over fun x => x.replace ds ss = .ok (x.subst δ σ)) :
    e.replace ds ss = .ok (e.subst δ σ) :=
  h.along (fun _ => rfl) fun _ _ _ hl hr => replace_binary hl hr

theorem over_subst (h : e.Over fun x => (x.subst δ σ).Over P) : (e.subst δ σ).Over P :=
  h.along over_const fun _ _ _ hl hr => over_binary.2 ⟨hl, hr⟩

/-- What is put in for a symbol that occurs, occurs. -/
theorem mem_subexprs_subst {x : Expr} (hp : sym p ∈ e.subexprs) (hx : x ∈ (σ p).subexprs) :
    x ∈ (e.subst δ σ).subexprs := by
  induction e with
  | sym q =>
    obtain rfl := Expr.sym.inj (List.mem_singleton.1 hp)
    exact hx
  | binary op l r ihl ihr =>
    simp only [subexprs, List.mem_cons, List.mem_append, reduceCtorEq, false_or] at hp
    rw [subst, subexprs, List.mem_cons, List.mem_append]
    exact .inr (hp.imp ihl ihr)
  | _ => simp [subexprs] at hp

theorem wellFormed_subst (hw : e.WellFormed) (h : e.Over fun x => (x.subst δ σ).WellFormed) :
    (e.subst δ σ).WellFormed :=
  WellFormed.along hw h (fun _ hp => hp) (fun _ hp => hp) (fun _ => trivial)
    (fun _ _ hl hr => ⟨hl, hr⟩) (fun _ _ hl hr => ⟨hl, hr⟩)
    (fun _ c hc hl => ⟨hl, c, hc, rfl⟩) fun _ c hc hl => ⟨hl, c, hc, rfl⟩

section Integers

variable (dims syms) (l r : Expr) (p c : Int64)

theorem valueIn_dim : (dim p).valueIn (integers dims syms) = (wordAt dims p).toInt := by
  simp only [valueIn, integers]

theorem valueIn_sym : (sym p).valueIn (integers dims syms) = (wordAt syms p).toInt := by
  simp only [valueIn, integers]

theorem valueIn_const : (const c).valueIn (integers dims syms) = c.toInt := by
  simp only [valueIn, integers]

theorem valueIn_floordiv : (binary .floordiv l (const c)).valueIn (integers dims syms) =
    l.valueIn (integers dims syms) / c.toInt := by
  rw [valueIn, valueIn_const]
  simp only [integers]

end Integers

theorem valueIn_binary (hl : l'.valueIn (integers dims' syms') = l.valueIn (integers dims syms))
    (hr : r'.valueIn (integers dims' syms') = r.valueIn (integers dims syms)) :
    (binary op l' r').valueIn (integers dims' syms') =
      (binary op l r).valueIn (integers dims syms) := by
  cases op with
  | add => exact congrArg₂ (· + ·) hl hr
  | mul => exact congrArg₂ (· * ·) hl hr
  | floordiv => exact congrArg₂ (· / ·) hl hr
  | mod => exact congrArg₂ (· % ·) hl hr
  | unknown => rfl

/-- The value in the integers, after a substitution that keeps those of dimensions and symbols. -/
theorem valueIn_subst (h : e.Over fun x =>
      (x.subst δ σ).valueIn (integers dims' syms') = x.valueIn (integers dims syms)) :
    (e.subst δ σ).valueIn (integers dims' syms') = e.valueIn (integers dims syms) :=
  h.along (fun c => by rw [subst, valueIn_const, valueIn_const]) fun _ _ _ hl hr =>
    valueIn_binary hl hr

/-- The value in words. -/
theorem eval_subst (hw : e.WellFormed)
    (h : e.Over fun x => (x.subst δ σ).eval dims' syms' = x.eval dims syms) :
    (e.subst δ σ).eval dims' syms' = e.eval dims syms := by
  refine WellFormed.along hw h (fun _ hp => hp) (fun _ hp => hp) (fun _ => rfl)
    (fun l r hl hr => ?_) (fun l r hl hr => ?_) (fun l c _ hl => ?_) fun l c _ hl => ?_
  · simp only [subst, eval, hl, hr]
  · simp only [subst, eval, hl, hr]
  · simp only [subst, eval, hl]
  · simp only [subst, eval, hl]

/-- Only values of dimensions and symbols that occur count. -/
theorem valueIn_congr
    (h : e.Over fun x => x.valueIn (integers dims' syms') = x.valueIn (integers dims syms)) :
    e.valueIn (integers dims' syms') = e.valueIn (integers dims syms) :=
  h.along (fun c => by rw [valueIn_const, valueIn_const]) fun _ _ _ hl hr => valueIn_binary hl hr

/-- A dimension or symbol among as many as are given. -/
def Within (d s : Nat) : Expr → Prop
  | dim p => 0 ≤ p.toInt ∧ p.toInt < d
  | sym p => 0 ≤ p.toInt ∧ p.toInt < s
  | _ => True

theorem within_placed {d s : Nat} (x : Expr) (h : x.Within d s) : x.Placed := by
  cases x with
  | dim p => exact Int64.le_iff_toInt_le.2 h.1
  | sym p => exact Int64.le_iff_toInt_le.2 h.1
  | _ => trivial

end Expr

/-! ## 2. Steady expressions -/

/-- Nothing wraps around while the expression is simplified, nor when what it is simplified to is
evaluated. -/
structure Steady (dims syms : List Int64) (e : Expr) : Prop where
  builds : e.buildsExactly Int64.toInt
  exact : ∀ s, e.simplify = .ok s → s.exact dims syms

variable {dims syms : List Int64} {e : Expr}

theorem steady_of_exact (hb : e.buildsExactly Int64.toInt)
    (h : e.simplify.toOption.map (Expr.exact dims syms) = some true) : Steady dims syms e where
  builds := hb
  exact s hs := by
    rw [hs] at h
    exact Option.some.inj h

/-- The simplified expression has the value of the expression. -/
theorem Steady.simplify (h : Steady dims syms e) (hw : e.WellFormed)
    (hvalues : e.Over fun x => ∃ n, x.eval dims syms = .ok n) {s : Expr} (hs : e.simplify = .ok s) :
    ∃ v, s.eval dims syms = .ok v ∧ v.toInt = e.valueIn (integers dims syms) := by
  obtain ⟨f, hf, hproper⟩ := linear_proper hw hvalues
  obtain rfl : f.toExpr = s := Except.ok.inj ((simplify_of_linear hf).symm.trans hs)
  obtain ⟨hws, -, hso⟩ := hproper.toExpr
  obtain ⟨v, hv⟩ := eval_of_over hws hso
  refine ⟨v, hv, ?_⟩
  rw [toInt_of_eval hws (h.exact _ hs) hv, Linear.valueIn_toExpr,
    linear_valueIn dims syms hw h.builds hf]

end ConvNest.Affine
