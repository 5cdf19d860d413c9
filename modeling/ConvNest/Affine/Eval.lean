/-
# Values and substitution of index expressions

The value of an expression at given dimensions and symbols, in words that wrap around, and the
replacement of dimensions and symbols by expressions.
-/
import ConvNest.Fault
import ConvNest.Word

namespace ConvNest.Affine

/-- The floor quotient of two words, stuck at a zero divisor. -/
def divide (a b : Int64) : Except Fault Int64 :=
  if b = 0 then .error (.stuck .division) else .ok (Word.floorDiv a b)

/-- The floor remainder of two words, stuck at a zero divisor. -/
def remainder (a b : Int64) : Except Fault Int64 :=
  if b = 0 then .error (.stuck .division) else .ok (Word.floorMod a b)

/-- The item at a position, stuck outside of the list. -/
def pick {α : Type} (xs : List α) (i : Int64) : Except Fault α :=
  match Word.at? xs i with
  | some x => .ok x
  | none => .error (.stuck .position)

namespace Expr

/-- The quotient by a constant, which has to be positive. -/
def floordiv (l : Expr) (c : Int64) : Except Fault Expr :=
  if 0 < c then .ok (binary .floordiv l (const c)) else .error (.quotientDivisor c)

/-- The remainder by a constant, which has to be positive. -/
def mod (l : Expr) (c : Int64) : Except Fault Expr :=
  if 0 < c then .ok (binary .mod l (const c)) else .error (.remainderDivisor c)

/-- The value of an expression. -/
def eval (dims syms : List Int64) : Expr → Except Fault Int64
  | dim p => pick dims p
  | sym p => pick syms p
  | const c => .ok c
  | binary op l r => do
    let a ← l.eval dims syms
    let b ← r.eval dims syms
    match op with
    | .add => return a + b
    | .mul => return a * b
    | .floordiv => divide a b
    | .mod => remainder a b
    | .unknown => throw (.unknownOperation (binary op l r))

/-- The replacement at a position: positions beyond the list, and empty entries, keep the
expression. -/
def substitute (e : Expr) (pos : Int64) (table : List (Option Expr)) : Except Fault Expr :=
  if pos < Word.length table then do
    return (← pick table pos).getD e
  else .ok e

/-- The expression with dimensions and symbols replaced. -/
def replace (dims syms : List (Option Expr)) : Expr → Except Fault Expr
  | dim p => substitute (dim p) p dims
  | sym p => substitute (sym p) p syms
  | const c => .ok (const c)
  | binary op l r => do
    return binary op (← l.replace dims syms) (← r.replace dims syms)

end Expr

end ConvNest.Affine
