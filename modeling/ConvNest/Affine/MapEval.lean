/-
# Building and evaluating maps

A map is built only from expressions whose positions are in its range, and evaluated only at as
many dimensions and symbols as it takes.
-/
import ConvNest.Affine.Linear

namespace ConvNest.Affine.Map

/-- Checks the positions of one subexpression. -/
def checkPosition (dims syms : Int64) : Expr → Except Fault Unit
  | .dim p => if p < 0 ∨ dims ≤ p then .error (.dimOutOfRange p dims) else .ok ()
  | .sym p => if p < 0 ∨ syms ≤ p then .error (.symOutOfRange p syms) else .ok ()
  | _ => .ok ()

/-- The map with the given results, whose positions have to be in range. -/
def make (dims syms : Int64) (results : List Expr) : Except Fault Map := do
  let m : Map := ⟨dims, syms, results⟩
  m.subexprs.forM (checkPosition dims syms)
  return m

/-- The greatest number of results that a map can hold. -/
def capacity : Int64 := 17592186044416

/-- The map of `n` dimensions to themselves. -/
def identity (n : Int64) : Except Fault Map :=
  if n < 0 ∨ capacity < n then .error (.stuck .length) else make n 0 ((Word.range n).map .dim)

/-- The values of all results. -/
def eval (m : Map) (dims syms : List Int64) : Except Fault (List Int64) :=
  if Word.length dims = m.dims ∧ Word.length syms = m.syms then
    m.results.mapM (Expr.eval dims syms)
  else .error (.mapArguments m dims.length syms.length)

/-- The dimension that a result is, if it is a plain dimension. -/
def pureDim (m : Map) (i : Int64) : Except Fault (Option Int64) := do
  match ← pick m.results i with
  | .dim p => return some p
  | _ => return none

/-- The map with all results in canonical form. -/
def simplify (m : Map) : Except Fault Map :=
  return { m with results := ← m.results.mapM Expr.simplify }

/-- The greatest number of symbols that can be marked as used. -/
def markCapacity : Int64 := 281474976710656

/-- For each symbol, whether some result has it. -/
def usedSyms (m : Map) : Except Fault (List Bool) :=
  if m.syms < 0 ∨ markCapacity < m.syms then .error (.stuck .length)
  else .ok ((Word.range m.syms).map m.usesSym)

end ConvNest.Affine.Map
