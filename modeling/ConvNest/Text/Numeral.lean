/-
# Reading integers and truth values

`readDecimal` takes an optional sign and decimal digits.  `readLiteral` also takes a base mark
(`0x`, `0b`, `0o` or a leading `0`) and underscores between digits.  Both read a 64-bit word, from
the left: a digit that overflows the unsigned range is reported before anything to its right is
looked at.
-/
import ConvNest.Text.Quoted

namespace ConvNest.Text

/-- Why a text is not read as a number. -/
inductive NumeralError where
  /-- The text is not a numeral. -/
  | form
  /-- The number does not fit a word. -/
  | range
  deriving DecidableEq, Repr

/-- The text of the cause. -/
def NumeralError.message : NumeralError → String
  | .form => "invalid syntax"
  | .range => "value out of range"

/-- The value of a digit or letter, letters counting from ten. -/
def digitValue? (c : Char) : Option Nat :=
  let n := c.toNat
  if 48 ≤ n && n ≤ 57 then some (n - 48)
  else if 97 ≤ n && n ≤ 122 then some (n - 87)
  else if 65 ≤ n && n ≤ 90 then some (n - 55)
  else none

/-- Reads the digits of an unsigned 64-bit number, from the left. -/
def readDigits (base : Nat) (underscores : Bool) : Nat → List Char → Except NumeralError Nat
  | acc, [] => .ok acc
  | acc, c :: rest =>
    if underscores && c = '_' then readDigits base underscores acc rest
    else match digitValue? c with
      | none => .error .form
      | some d =>
        if base ≤ d then .error .form
        else if (UInt64.size - 1) / base + 1 ≤ acc then .error .range
        else if UInt64.size ≤ acc * base + d then .error .range
        else readDigits base underscores (acc * base + d) rest

/-- Splits an optional sign from a numeral. -/
def splitSign : List Char → Bool × List Char
  | '+' :: rest => (false, rest)
  | '-' :: rest => (true, rest)
  | cs => (false, cs)

/-- The word with the given sign and magnitude. -/
def signedWord (negative : Bool) (n : Nat) : Except NumeralError Int64 :=
  if negative then
    if Nat.pow 2 63 < n then .error .range else .ok (Int64.ofInt (-(n : Int)))
  else if Nat.pow 2 63 ≤ n then .error .range else .ok (Int64.ofInt n)

/-- A decimal numeral with an optional sign. -/
def readDecimal (s : String) : Except NumeralError Int64 := do
  let (negative, cs) := splitSign s.toList
  if cs.isEmpty then throw .form
  signedWord negative (← readDigits 10 false 0 cs)

/-- Where an underscore may stand in a numeral: after a base mark or a digit, before a digit. -/
inductive Before where
  | start
  | digit
  | underscore
  | other
  deriving DecidableEq

/-- Whether the underscores of a numeral stand only between digits, or between the base mark and a
digit. -/
def underscoresOk (hex : Bool) : Before → List Char → Bool
  | seen, [] => seen != .underscore
  | seen, c :: rest =>
    let isDigit := match digitValue? c with
      | some d => d < 10 || (hex && d < 16)
      | none => false
    if isDigit then underscoresOk hex .digit rest
    else if c = '_' then seen == .digit && underscoresOk hex .underscore rest
    else seen != .underscore && underscoresOk hex .other rest

/-- The base mark of a literal: the base, whether it is hexadecimal, the digits after the mark, and
what stands before them for the rule of underscores. -/
def splitBase : List Char → Nat × Bool × List Char × Before
  | '0' :: m :: c :: rest =>
    if m = 'b' || m = 'B' then (2, false, c :: rest, .digit)
    else if m = 'o' || m = 'O' then (8, false, c :: rest, .digit)
    else if m = 'x' || m = 'X' then (16, true, c :: rest, .digit)
    else (8, false, m :: c :: rest, .digit)
  | '0' :: rest => (8, false, rest, .digit)
  | cs => (10, false, cs, .start)

/-- An integer literal with an optional sign, base mark and underscores. -/
def readLiteral (s : String) : Except NumeralError Int64 := do
  let (negative, cs) := splitSign s.toList
  if cs.isEmpty then throw .form
  let (base, hex, digits, seen) := splitBase cs
  let n ← readDigits base true 0 digits
  if digits.contains '_' && !underscoresOk hex seen digits then throw .form
  signedWord negative n

/-- The texts of the truth values. -/
def readBool (s : String) : Option Bool :=
  if ["1", "t", "T", "TRUE", "true", "True"].contains s then some true
  else if ["0", "f", "F", "FALSE", "false", "False"].contains s then some false
  else none

end ConvNest.Text
