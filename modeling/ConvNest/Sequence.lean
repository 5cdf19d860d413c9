/-
# Sequences

Small functions on lists of numbers and texts: runs of consecutive numbers, the greatest item, and
sorted keys.
-/
import ConvNest.Fault
import ConvNest.Word

namespace ConvNest.Sequence

/-- The greatest length of a sequence. -/
def capacity : Int64 := 35184372088832

/-- Checks the length of a sequence. -/
def checkLength (n : Int64) : Except Fault Unit :=
  if n < 0 ∨ capacity < n then .error (.stuck .length) else .ok ()

/-- The `n` words from `start` on. -/
def wordsFrom (start n : Int64) : Except Fault (List Int64) := do
  checkLength n
  return (Word.range n).map (start + ·)

/-- The `n` doubles `start`, `start + 1`, and so on. -/
def floatsFrom (start : Float) (n : Int64) : Except Fault (List Float) := do
  checkLength n
  return (Word.range n).map fun i => start + i.toFloat

/-- The greatest word, and zero for no words. -/
def greatest : List Int64 → Int64
  | [] => 0
  | n :: ns => ns.foldl (fun m k => if m < k then k else m) n

/-- The last text in the order of bytes, and the empty text for no texts. -/
def lastText : List String → String
  | [] => ""
  | s :: ss => ss.foldl (fun m t => if m < t then t else m) s

/-- Texts in the order of their bytes. -/
def sorted (keys : List String) : List String := keys.mergeSort Text.le

end ConvNest.Sequence
