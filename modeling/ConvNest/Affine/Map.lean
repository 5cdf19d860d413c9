/-
# Affine maps

A map takes a number of dimensions and symbols to a list of expressions over them.  This file holds
the type, its text and the questions about it that cannot fail.
-/
import ConvNest.Affine.Expr

namespace ConvNest.Affine

/-- A list of expressions over numbered dimensions and symbols. -/
structure Map where
  dims : Int64
  syms : Int64
  results : List Expr
  deriving DecidableEq, Repr, Inhabited

namespace Map

/-- Names `d0, d1, ...` of the given letter. -/
def names (letter : String) (n : Int64) : String :=
  Text.commas ((List.range n.toInt.toNat).map fun i => letter ++ Text.count i)

/-- The text `(d0, d1)[s0] -> (d0 + s0, d1)`. -/
def text (m : Map) : String :=
  "(" ++ names "d" m.dims ++ ")" ++
    (if 0 < m.syms then "[" ++ names "s" m.syms ++ "]" else "") ++
    " -> (" ++ Text.commas (m.results.map Expr.text) ++ ")"

/-- Whether two maps have the same text. -/
def sameText (m n : Map) : Bool := m.text == n.text

/-- The number of results. -/
def arity (m : Map) : Nat := m.results.length

/-- The subexpressions of all results. -/
def subexprs (m : Map) : List Expr := m.results.flatMap Expr.subexprs

/-- Whether a symbol occurs in some result. -/
def usesSym (m : Map) (i : Int64) : Bool :=
  m.subexprs.any fun
    | .sym p => p == i
    | _ => false

end Map

end ConvNest.Affine
