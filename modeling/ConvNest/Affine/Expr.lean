/-
# Affine index expressions

Expressions over loop dimensions `d0, d1, ...`, symbols `s0, s1, ...` and constants, built from
sums, products, floor quotients and remainders, with their text.

An expression may be ill formed: a quotient by something other than a positive constant, a negative
position, or an operation that is none of the four.  Such expressions have a text, and evaluating
or simplifying them may fail.
-/
import ConvNest.Text.Basic

namespace ConvNest.Affine

/-- The operations of index expressions. -/
inductive Operation where
  | add
  | mul
  | floordiv
  | mod
  /-- Any other operation: it has no meaning. -/
  | unknown
  deriving DecidableEq, Repr, Inhabited

/-- An index expression. -/
inductive Expr where
  | dim (pos : Int64)
  | sym (pos : Int64)
  | const (c : Int64)
  | binary (op : Operation) (lhs rhs : Expr)
  deriving DecidableEq, Repr, Inhabited

namespace Expr

/-- The sum of two expressions. -/
def add (l r : Expr) : Expr := binary .add l r

/-- The product of two expressions. -/
def mul (l r : Expr) : Expr := binary .mul l r

/-- The difference of two expressions, as a sum with the product by `-1`. -/
def sub (l r : Expr) : Expr := add l (mul r (const (-1)))

/-- Whether the expression has an operation at its root. -/
def isBinary : Expr → Bool
  | binary _ _ _ => true
  | _ => false

/-- Whether the expression is a sum. -/
def isSum : Expr → Bool
  | binary .add _ _ => true
  | _ => false

/-- Puts the text of an expression between parentheses: a sum always, another operation only where
`strict`. -/
def wrap (strict : Bool) (e : Expr) (text : String) : String :=
  if e.isSum || (strict && e.isBinary) then "(" ++ text ++ ")" else text

/-- The text of an expression.  A sum with a negative constant, or with the product by one, is
written as a difference. -/
def text : Expr → String
  | dim p => "d" ++ Text.word p
  | sym p => "s" ++ Text.word p
  | const c => Text.word c
  | binary .add l (const c) =>
    if c < 0 then l.text ++ " - " ++ Text.word (-c) else l.text ++ " + " ++ Text.word c
  | binary .add l (binary .mul m (const c)) =>
    if c = -1 then l.text ++ " - " ++ wrap false m m.text
    else if c < 0 then l.text ++ " - " ++ wrap false m m.text ++ " * " ++ Text.word (-c)
    else l.text ++ " + " ++ (wrap false m m.text ++ " * " ++ Text.word c)
  | binary .add l r => l.text ++ " + " ++ wrap false r r.text
  | binary .mul l r => wrap false l l.text ++ " * " ++ wrap true r r.text
  | binary .floordiv l r => wrap false l l.text ++ " floordiv " ++ r.text
  | binary .mod l r => wrap false l l.text ++ " mod " ++ r.text
  | binary .unknown _ _ => "<invalid affine expr>"

/-- All subexpressions, an expression before its parts. -/
def subexprs : Expr → List Expr
  | binary op l r => binary op l r :: (l.subexprs ++ r.subexprs)
  | e => [e]

/-- Whether a dimension occurs. -/
def usesDims : Expr → Bool
  | dim _ => true
  | binary _ l r => l.usesDims || r.usesDims
  | _ => false

/-- The nesting depth. -/
def depth : Expr → Nat
  | binary _ l r => max l.depth r.depth + 1
  | _ => 0

end Expr

end ConvNest.Affine
