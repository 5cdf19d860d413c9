/-
# Quoted text

A text between double quotes, in which quotes and backslashes are escaped by a backslash,
printable characters stand for themselves, and all others are written as short escapes (`\n`),
as two hexadecimal digits (`\x01`), four (`\u200b`) or eight (`\U000e0001`).
-/
import ConvNest.Text.Printable

namespace ConvNest.Text

/-- Hexadecimal digits of `n`, with zeros in front up to the given width. -/
def hexPadded (width n : Nat) : String :=
  let digits := Nat.toDigits 16 n
  String.ofList (List.replicate (width - digits.length) '0' ++ digits)

/-- The escape of a character that is not shown as it is. -/
def escape (c : Char) : String :=
  match c.toNat with
  | 7 => "\\a"
  | 8 => "\\b"
  | 9 => "\\t"
  | 10 => "\\n"
  | 11 => "\\v"
  | 12 => "\\f"
  | 13 => "\\r"
  | n =>
    if n < 0x20 || n == 0x7F then "\\x" ++ hexPadded 2 n
    else if n < 0x10000 then "\\u" ++ hexPadded 4 n
    else "\\U" ++ hexPadded 8 n

/-- One character inside a quoted text. -/
def quotedChar (c : Char) : String :=
  if c = '"' then "\\\"" else if c = '\\' then "\\\\"
  else if isPrintable c then c.toString else escape c

/-- The text between double quotes. -/
def quoted (s : String) : String := "\"" ++ String.join (s.toList.map quotedChar) ++ "\""

end ConvNest.Text
