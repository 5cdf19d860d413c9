/-
# Words

Dimensions, offsets and costs are signed 64-bit words, whose sums and products wrap around.  The
quotient of the machine truncates toward zero; index expressions divide toward the floor, so that
the remainder by a positive divisor is never negative.

`foldBelow` visits the words below a bound without a list of them; `foldBelow_eq_foldlM` says that
it is the fold over that list.
-/
namespace ConvNest.Word

/-- The quotient rounded toward the floor, for a divisor other than zero. -/
def floorDiv (a b : Int64) : Int64 :=
  let q := a / b
  if a % b ≠ 0 && (decide (a < 0) != decide (b < 0)) then q - 1 else q

/-- The remainder of `floorDiv`, which has the sign of the divisor. -/
def floorMod (a b : Int64) : Int64 :=
  let r := a % b
  if r ≠ 0 && (decide (r < 0) != decide (b < 0)) then r + b else r

/-- The item at a position given by a word, if there is one. -/
def at? {α : Type} (xs : List α) (i : Int64) : Option α :=
  if i < 0 then none else xs[i.toInt.toNat]?

/-- The length of a list as a word. -/
def length {α : Type} (xs : List α) : Int64 := Int64.ofNat xs.length

/-- The words `0, 1, ..., n - 1`; none for a negative `n`. -/
def range (n : Int64) : List Int64 := (List.range n.toInt.toNat).map Int64.ofNat

/-- Visits `count` words in order, from the given one on. -/
@[specialize] def foldFrom {m : Type → Type} {β : Type} [Monad m] (f : β → Int64 → m β) :
    Nat → Int64 → β → m β
  | 0, _, b => pure b
  | count + 1, i, b => do foldFrom f count (i + 1) (← f b i)

/-- Visits the words `0, 1, ..., n - 1` in order. -/
@[specialize] def foldBelow {m : Type → Type} {β : Type} [Monad m] (f : β → Int64 → m β)
    (n : Int64) (b : β) : m β :=
  foldFrom f n.toInt.toNat 0 b

theorem foldFrom_eq_foldlM {m : Type → Type} {β : Type} [Monad m] (f : β → Int64 → m β)
    (count : Nat) (i : Int64) (b : β) :
    foldFrom f count i b = ((List.range count).map (i + Int64.ofNat ·)).foldlM f b := by
  induction count generalizing i b with
  | zero => rfl
  | succ n ih =>
    have next (k : Nat) : i + Int64.ofNat (k + 1) = i + 1 + Int64.ofNat k := by
      rw [Int64.ofNat_add, Int64.add_assoc, Int64.add_comm (Int64.ofNat k)]
      rfl
    have first : i + Int64.ofNat 0 = i := Int64.add_zero i
    simp only [foldFrom, List.range_succ_eq_map, List.map_cons, List.map_map, List.foldlM_cons]
    rw [first]
    refine bind_congr fun c => ?_
    rw [ih]
    congr 2
    funext k
    exact (next k).symm

/-- A visit of words is a fold over the list of them. -/
theorem foldBelow_eq_foldlM {m : Type → Type} {β : Type} [Monad m] (f : β → Int64 → m β)
    (n : Int64) (b : β) : foldBelow f n b = (range n).foldlM f b := by
  rw [foldBelow, foldFrom_eq_foldlM, range]
  congr 2
  funext k
  exact Int64.zero_add _

end ConvNest.Word
