/-
# Sets of keys

A set is a list of keys without repetition, in the order in which they were inserted.
-/
namespace ConvNest

/-- A set of keys. -/
structure KeySet (α : Type) where
  keys : List α
  deriving Repr, Inhabited

namespace KeySet

variable {α : Type} [BEq α]

/-- The empty set. -/
def empty : KeySet α := ⟨[]⟩

/-- Whether a key is in the set. -/
def contains (s : KeySet α) (key : α) : Bool := s.keys.contains key

/-- Whether one of the keys is in the set. -/
def containsAny (s : KeySet α) (keys : List α) : Bool := keys.any s.contains

/-- The set with one more key. -/
def insert (s : KeySet α) (key : α) : KeySet α := if s.contains key then s else ⟨s.keys ++ [key]⟩

/-- The set with more keys. -/
def insertMany (s : KeySet α) (keys : List α) : KeySet α := keys.foldl insert s

/-- The set without the given keys. -/
def eraseMany (s : KeySet α) (keys : List α) : KeySet α := ⟨s.keys.filter fun k => !keys.contains k⟩

/-- The set of the given keys. -/
def ofList (keys : List α) : KeySet α := empty.insertMany keys

end KeySet

end ConvNest
