/-
# Height and width

Strides and dilations of a convolution.
-/
import ConvNest.Text.Basic

namespace ConvNest

/-- A pair of words, for height and width. -/
structure Pair where
  height : Int64
  width : Int64
  deriving DecidableEq, Repr, Inhabited

namespace Pair

/-- One in both directions. -/
def ones : Pair := ⟨1, 1⟩

/-- The two words as a list. -/
def toList (p : Pair) : List Int64 := [p.height, p.width]

/-- The text `[1 2]`. -/
def text (p : Pair) : String := Text.words p.toList

end Pair

end ConvNest
