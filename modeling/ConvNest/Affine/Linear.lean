/-
# Linear forms and simplification

An expression is simplified through its linear form: a constant and a sum of terms with
coefficients, where a term is a dimension, a symbol, or an expression that is not linear (itself
simplified).  Terms are merged by their text.

A quotient or remainder by a constant splits the form into the part that the divisor divides and
the rest, which stays under the operation.

`simplify` writes the form back in a fixed order: dimensions, then symbols, then other terms, each
by position and text, terms with a positive coefficient first, and the constant last.
-/
import ConvNest.Affine.Eval

namespace ConvNest.Affine

/-- An expression with a coefficient. -/
structure Term where
  expr : Expr
  coef : Int64
  deriving DecidableEq, Repr, Inhabited

/-- The text by which terms are merged. -/
def Term.key (t : Term) : String := t.expr.text

/-- A sum of terms and a constant. -/
structure Linear where
  terms : List Term
  constant : Int64
  deriving DecidableEq, Repr, Inhabited

namespace Linear

/-- The form that is a constant. -/
def ofConst (c : Int64) : Linear := ⟨[], c⟩

/-- Whether there are no terms. -/
def isConst (l : Linear) : Bool := l.terms.isEmpty

/-- Adds a multiple of an expression to the terms: a term with the same text takes the sum of the
coefficients, and goes away when it is zero. -/
def addTerm (e : Expr) (c : Int64) : List Term → List Term
  | [] => if c = 0 then [] else [⟨e, c⟩]
  | t :: ts =>
    if t.key = e.text then
      if t.coef + c = 0 then ts else ⟨e, t.coef + c⟩ :: ts
    else t :: addTerm e c ts

/-- The form of a single term. -/
def ofExpr (e : Expr) : Linear := ⟨addTerm e 1 [], 0⟩

/-- The sum with a multiple of another form. -/
def addScaled (l m : Linear) (scale : Int64) : Linear :=
  { terms := m.terms.foldl (fun ts t => addTerm t.expr (t.coef * scale) ts) l.terms
    constant := l.constant + m.constant * scale }

/-- The group of a term in the order of terms, and its position within the group. -/
def rank : Expr → Nat × Int64
  | .dim p => (0, p)
  | .sym p => (1, p)
  | _ => (2, 0)

/-- The order of terms.  Positions are compared through their difference. -/
def termLe (s t : Term) : Bool :=
  let a := rank s.expr
  let b := rank t.expr
  if a.1 ≠ b.1 then a.1 < b.1
  else if a.2 ≠ b.2 then a.2 - b.2 < 0
  else Text.le s.key t.key

/-- The terms in the order in which they are written. -/
def sortedTerms (l : Linear) : List Term :=
  let ts := l.terms.mergeSort termLe
  ts.filter (fun t => decide (0 < t.coef)) ++ ts.filter (fun t => !decide (0 < t.coef))

/-- A term as an expression. -/
def termExpr (t : Term) : Expr := if t.coef = 1 then t.expr else .mul t.expr (.const t.coef)

/-- The form as an expression. -/
def toExpr (l : Linear) : Expr :=
  match l.sortedTerms.map termExpr with
  | [] => .const l.constant
  | e :: es =>
    let sum := es.foldl Expr.add e
    if l.constant = 0 then sum else .add sum (.const l.constant)

/-- The part that a divisor divides, divided by it; its constant is the floor quotient. -/
def quotient (l : Linear) (d : Int64) : Linear :=
  { terms := (l.terms.filter fun t => t.coef % d == 0).map fun t => ⟨t.expr, t.coef / d⟩
    constant := Word.floorDiv l.constant d }

/-- The part that a divisor does not divide; its constant is the floor remainder. -/
def rest (l : Linear) (d : Int64) : Linear :=
  { terms := l.terms.filter fun t => t.coef % d != 0
    constant := Word.floorMod l.constant d }

/-- The form of a floor quotient. -/
def floordiv (l : Linear) (d : Int64) : Except Fault Linear :=
  if d = 0 then .error (.stuck .division)
  else
    let q := l.quotient d
    let r := l.rest d
    if r.isConst || d == 1 then .ok q
    else do
      let e ← Expr.floordiv r.toExpr d
      return { q with terms := addTerm e 1 q.terms }

/-- The form of a floor remainder. -/
def mod (l : Linear) (d : Int64) : Except Fault Linear :=
  if d = 0 then .error (.stuck .division)
  else
    let r := l.rest d
    if r.isConst then .ok (ofConst r.constant)
    else if d == 1 then .ok (ofConst 0)
    else do
      let e ← Expr.mod r.toExpr d
      return ofExpr e

/-- The form of a product: one of the factors is a constant, or the product is a term. -/
def mul (l r : Linear) : Linear :=
  if r.isConst then (ofConst 0).addScaled l r.constant
  else if l.isConst then (ofConst 0).addScaled r l.constant
  else ofExpr (.mul l.toExpr r.toExpr)

/-- The form of a sum. -/
def add (l r : Linear) : Linear := l.addScaled r 1

end Linear

namespace Expr

/-- The linear form of an expression. -/
def linear : Expr → Except Fault Linear
  | dim p => .ok (Linear.ofExpr (dim p))
  | sym p => .ok (Linear.ofExpr (sym p))
  | const c => .ok (Linear.ofConst c)
  | binary op l r => do
    let a ← l.linear
    let b ← r.linear
    match op with
    | .add => return a.add b
    | .mul => return a.mul b
    | .floordiv => a.floordiv b.constant
    | .mod => a.mod b.constant
    | .unknown => return Linear.ofConst 0

/-- The expression in canonical form. -/
def simplify (e : Expr) : Except Fault Expr := return (← e.linear).toExpr

/-- The value of an expression that simplifies to a constant. -/
def asConst? (e : Expr) : Except Fault (Option Int64) := do
  let l ← e.linear
  return if l.isConst then some l.constant else none

/-- Whether all terms with dimensions are known not to decrease: they have a coefficient that is
not negative and are a dimension, or the quotient of an expression of the same kind.  `fuel` bounds
the nesting of quotients. -/
def nonDecreasingWithin : Nat → Expr → Except Fault Bool
  | 0, _ => .ok false
  | fuel + 1, e => do
    let l ← e.linear
    l.terms.allM fun t =>
      if !t.expr.usesDims then .ok true
      else if t.coef < 0 then .ok false
      else match t.expr with
        | dim _ => .ok true
        | binary .floordiv x _ => nonDecreasingWithin fuel x
        | _ => .ok false

/-- Whether the expression is known not to decrease in any dimension, whatever the symbols. -/
def nonDecreasing (e : Expr) : Except Fault Bool := nonDecreasingWithin (e.depth + 1) e

end Expr

end ConvNest.Affine
