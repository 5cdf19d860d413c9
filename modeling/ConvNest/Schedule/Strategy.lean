/-
# Strategies and search heuristics

A strategy says which operand stays in the cache while the other one is streamed.  A heuristic says
how to look for the largest tile parameter that fits a capacity: by halving from the largest one, or
by bisection.

On sizes that do not decrease both find a parameter exactly if the parameter one fits.  Bisection
finds the largest one, halving at least half of it.
-/
import ConvNest.Text.Basic
import ConvNest.Text.Blank
import ConvNest.Text.Lower
import ConvNest.Text.Quoted

namespace ConvNest.Schedule

/-- Which operand stays in the cache. -/
inductive Strategy where
  | inputStationary
  | weightStationary
  | other (n : Int64)
  deriving DecidableEq, Repr, Inhabited

namespace Strategy

/-- The strategy of a number. -/
def ofNumber (n : Int64) : Strategy :=
  if n = 1 then inputStationary else if n = 2 then weightStationary else other n

/-- The number of a strategy. -/
def number : Strategy → Int64
  | inputStationary => 1
  | weightStationary => 2
  | other n => n

/-- Whether the strategy is one of the two. -/
def valid : Strategy → Bool
  | other _ => false
  | _ => true

/-- The text of a strategy. -/
def text : Strategy → String
  | inputStationary => "IS"
  | weightStationary => "WS"
  | other n => s!"Strategy({Text.word n})"

/-- Reads a strategy, in any case and with blanks around it. -/
def ofName? (s : String) : Option Strategy :=
  let name := Text.lower (Text.trim s)
  if name == "is" || name == "input_stationary" then some inputStationary
  else if name == "ws" || name == "weight_stationary" then some weightStationary
  else none

/-- The complaint about a name that is not known. -/
def unknownName (s : String) : String :=
  s!"unknown strategy {Text.quoted s}, valid values are \"is\" or \"ws\""

end Strategy

/-- How to look for the largest parameter that fits. -/
inductive Heuristic where
  | half
  | binary
  | other (n : Int64)
  deriving DecidableEq, Repr, Inhabited

namespace Heuristic

/-- The heuristic of a number. -/
def ofNumber (n : Int64) : Heuristic := if n = 0 then half else if n = 1 then binary else other n

/-- The number of a heuristic. -/
def number : Heuristic → Int64
  | half => 0
  | binary => 1
  | other n => n

/-- The text of a heuristic. -/
def text : Heuristic → String
  | half => "half"
  | binary => "binary"
  | other n => s!"Heuristic({Text.word n})"

/-- Reads a heuristic, in any case and with blanks around it. -/
def ofName? (s : String) : Option Heuristic :=
  let name := Text.lower (Text.trim s)
  if name == "half" then some half
  else if name == "binary" || name == "binary_search" then some binary
  else none

/-- The complaint about a name that is not known. -/
def unknownName (s : String) : String :=
  s!"unknown heuristic {Text.quoted s}, valid values are \"half\" or \"binary\""

/-- The largest parameter from `low` to `high` that fits, or `found` if none does, by bisection in
at most `fuel` steps. -/
def bisect (fits : Int64 → Bool) : Nat → Int64 → Int64 → Option Int64 → Option Int64
  | 0, _, _, found => found
  | fuel + 1, low, high, found =>
    if low ≤ high then
      let mid := low + (high - low) / 2
      if fits mid then bisect fits fuel (mid + 1) high (some mid)
      else bisect fits fuel low (mid - 1) found
    else found

/-- The first of `n`, `n / 2`, and so on that fits, in at most `fuel` steps. -/
def halve (fits : Int64 → Bool) : Nat → Int64 → Option Int64
  | 0, _ => none
  | fuel + 1, n =>
    if 0 < n then
      if fits n then some n else halve fits fuel (n / 2)
    else none

/-- A parameter from 1 to `most` whose size is within the capacity.  A step leaves fewer parameters
than there were, so `most` steps are enough. -/
def search (h : Heuristic) (most : Int64) (size : Int64 → Int64) (capacity : Int64) :
    Option Int64 :=
  let fits (n : Int64) : Bool := decide (size n ≤ capacity)
  if most < 1 then none
  else if fits most then some most
  else match h with
    | binary => bisect fits most.toInt.toNat 1 most none
    | _ => halve fits most.toInt.toNat (most / 2)

end Heuristic

end ConvNest.Schedule
