/-
# Text of words and lists

The spelling of 64-bit words and of lists of them, shared by every message and report.
-/
namespace ConvNest.Text

/-- The decimal text of a signed word. -/
def word (n : Int64) : String := toString n.toInt

/-- The decimal text of a count. -/
def count (n : Nat) : String := toString n

/-- Items between brackets, one space apart: `[1 2 3]`. -/
def bracketed (items : List String) : String := "[" ++ " ".intercalate items ++ "]"

/-- A list of words: `[1 -2 3]`, and `[]` for none. -/
def words (ns : List Int64) : String := bracketed (ns.map word)

/-- Groups of words: `[[0] [1] [2 3]]`. -/
def groups (gs : List (List Int64)) : String := bracketed (gs.map words)

/-- Items separated by a comma and a space. -/
def commas (items : List String) : String := ", ".intercalate items

/-- The lines of a text; a text that ends in a newline has an empty last line. -/
def lines (s : String) : List String := s.splitOn "\n"

/-- The part of a text before its first newline. -/
def firstLine (s : String) : String := String.ofList (s.toList.takeWhile (· ≠ '\n'))

/-- The byte order of texts: code points compare as their UTF-8 bytes do. -/
def le (a b : String) : Bool := decide (a < b) || a == b

end ConvNest.Text
