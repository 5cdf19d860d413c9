/-
# Points of a box

A box with sides `n0, n1, ...` holds the points `i0, i1, ...` with `0 ≤ i < n` on every axis.  They
are visited in row-major order: the last index runs fastest.

`points` is the list of all points, by recursion on the sides.  `pointsFrom` lists them from a point
to its successor, so that a list may be cut short.  `foldM` visits them one after the other and
holds no list at all: a visit that fails ends the walk, however large the box is.  By
`foldM_eq_foldlM` it is the fold over `points`.
-/
import ConvNest.Shape.Basic
import ConvNest.Word

namespace ConvNest

namespace Box

/-- All points, in row-major order. -/
def points : List Int64 → List (List Int64)
  | [] => [[]]
  | n :: ns => (Word.range n).flatMap fun i => (points ns).map (i :: ·)

/-- The first point. -/
def origin (sides : List Int64) : List Int64 := sides.map fun _ => 0

/-- The point after the given one, if it is not the last. -/
def successor : List Int64 → List Int64 → Option (List Int64)
  | n :: ns, i :: is =>
    match successor ns is with
    | some next => some (i :: next)
    | none => if i + 1 < n then some ((i + 1) :: origin ns) else none
  | _, _ => none

/-- The number of points, as a natural number. -/
def volume (sides : List Int64) : Nat := (sides.map fun n => n.toInt.toNat).foldl (· * ·) 1

/-- At most `count` points, from the given one on. -/
def pointsFrom (sides : List Int64) : Nat → List Int64 → List (List Int64)
  | 0, _ => []
  | count + 1, p =>
    p :: match successor sides p with
      | some q => pointsFrom sides count q
      | none => []

/-- Visits the points whose first indices are given, the last of them first. -/
@[specialize] def foldFrom {m : Type → Type} {β : Type} [Monad m] (f : β → List Int64 → m β) :
    List Int64 → List Int64 → β → m β
  | [], given, b => f b given.reverse
  | n :: ns, given, b => Word.foldBelow (fun b i => foldFrom f ns (i :: given) b) n b

/-- Visits every point, in row-major order. -/
@[specialize] def foldM {m : Type → Type} {β : Type} [Monad m] (sides : List Int64)
    (f : β → List Int64 → m β) (b : β) : m β :=
  foldFrom f sides [] b

theorem foldlM_flatMap {m : Type → Type} {α γ β : Type} [Monad m] [LawfulMonad m]
    (f : β → γ → m β) (g : α → List γ) (xs : List α) (b : β) :
    (xs.flatMap g).foldlM f b = xs.foldlM (fun b x => (g x).foldlM f b) b := by
  induction xs generalizing b with
  | nil => rfl
  | cons x xs ih =>
    rw [List.flatMap_cons, List.foldlM_append, List.foldlM_cons]
    exact bind_congr fun c => ih c

theorem foldFrom_eq_foldlM {m : Type → Type} {β : Type} [Monad m] [LawfulMonad m]
    (f : β → List Int64 → m β) (sides given : List Int64) (b : β) :
    foldFrom f sides given b = (points sides).foldlM (fun b p => f b (given.reverse ++ p)) b := by
  induction sides generalizing given b with
  | nil => simp [foldFrom, points]
  | cons n ns ih =>
    rw [foldFrom, Word.foldBelow_eq_foldlM, points, foldlM_flatMap]
    congr 1
    funext c i
    rw [ih, List.foldlM_map]
    simp

/-- A visit of all points is a fold over the list of them. -/
theorem foldM_eq_foldlM {m : Type → Type} {β : Type} [Monad m] [LawfulMonad m]
    (sides : List Int64) (f : β → List Int64 → m β) (b : β) :
    foldM sides f b = (points sides).foldlM f b := by
  rw [foldM, foldFrom_eq_foldlM]
  simp

end Box

/-- The indices of a static shape in row-major order, at most `limit` of them if one is given.
Other shapes have none. -/
def Shape.indices (s : Shape) (limit : Option Nat) : List (List Int64) :=
  if s.ok && s.isStatic then
    let all := Box.volume s.words
    Box.pointsFrom s.words (match limit with | some k => min k all | none => all)
      (Box.origin s.words)
  else []

/-- Visits the indices of a static shape in row-major order, with the flat position of each.  Other
shapes have none. -/
@[specialize] def Shape.foldIndices {m : Type → Type} {β : Type} [Monad m] (s : Shape)
    (f : β → Int64 → List Int64 → m β) (b : β) : m β :=
  if s.ok && s.isStatic then do
    let visit : β × Int64 → List Int64 → m (β × Int64)
      | (b, k), p => do return (← f b k p, k + 1)
    return (← Box.foldM s.words visit (b, 0)).1
  else pure b

end ConvNest
