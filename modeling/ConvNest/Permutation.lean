/-
# Permutations

A permutation of `n` items is a list of the words `0, ..., n - 1`, each once.  `check` accepts
exactly these lists and names the first entry that is wrong, `permute` reorders a list, and
`inverse` undoes it.
-/
import ConvNest.Fault
import ConvNest.Word

namespace ConvNest.Permutation

/-- Why a list is not a permutation. -/
inductive Flaw where
  | length (perm : List Int64) (wanted : Int64)
  | outOfRange (perm : List Int64) (entry : Int64)
  | repeated (perm : List Int64) (entry : Int64)
  deriving DecidableEq, Repr

/-- The text of a flaw. -/
def Flaw.message : Flaw → String
  | length p n =>
    s!"permutation {Text.words p} has length {Text.count p.length}, wanted {Text.word n}"
  | outOfRange p i => s!"permutation {Text.words p} has out-of-range entry {Text.word i}"
  | repeated p i => s!"permutation {Text.words p} repeats entry {Text.word i}"

/-- Checks the entries of a permutation one by one; `seen` are those before. -/
def checkEntries (perm : List Int64) (n : Int64) : List Int64 → List Int64 → Except Flaw Unit
  | _, [] => .ok ()
  | seen, i :: rest =>
    if i < 0 ∨ n ≤ i then .error (.outOfRange perm i)
    else if seen.contains i then .error (.repeated perm i)
    else checkEntries perm n (i :: seen) rest

/-- Checks that a list is a permutation of `n` items. -/
def check (perm : List Int64) (n : Int64) : Except Flaw Unit :=
  if Word.length perm = n then checkEntries perm n [] perm else .error (.length perm n)

/-- The items in the order of a permutation: the `i`-th is the one at the `i`-th entry. -/
def permute {α : Type} (xs : List α) (perm : List Int64) : Except Fault (List α) :=
  perm.mapM fun i =>
    match Word.at? xs i with
    | some x => .ok x
    | none => .error (.stuck .position)

/-- Stores the position of each entry at the entry. -/
def invertFrom : Nat → List Int64 → List Int64 → Except Fault (List Int64)
  | _, [], inv => .ok inv
  | k, i :: rest, inv =>
    if 0 ≤ i ∧ i < Word.length inv then
      invertFrom (k + 1) rest (inv.set i.toInt.toNat (Int64.ofNat k))
    else .error (.stuck .position)

/-- The permutation that undoes the given one. -/
def inverse (perm : List Int64) : Except Fault (List Int64) :=
  invertFrom 0 perm (perm.map fun _ => 0)

end ConvNest.Permutation
