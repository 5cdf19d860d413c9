/-
# Counts and amounts of bytes in reports

Counts have a comma every three digits.  Amounts of bytes are scaled by powers of a thousand and
rounded to a tenth; the tenth is shown below ten only, and above it a half goes to the even
neighbour.
-/
namespace ConvNest.Text

/-- Commas every three digits, counted from the end of a reversed list of digits. -/
def groupThousands : List Char → List Char
  | a :: b :: c :: d :: rest => a :: b :: c :: ',' :: groupThousands (d :: rest)
  | ds => ds

/-- A count with a comma every three digits. -/
def grouped (n : Int64) : String :=
  let digits := groupThousands (Nat.toDigits 10 n.toInt.natAbs).reverse
  (if n < 0 then "-" else "") ++ String.ofList digits.reverse

/-- The units of amounts, each a thousand times the one before. -/
def byteUnits : List String := ["B", "kB", "MB", "GB", "TB", "PB", "EB"]

/-- The tenths of an amount, rounded to a whole number of units with a half to the even one. -/
def wholeFromTenths (k : Nat) : Nat :=
  let q := k / 10
  let r := k % 10
  if r < 5 then q else if 5 < r then q + 1 else if q % 2 == 0 then q else q + 1

/-- An amount of bytes. -/
def bytes (n : UInt64) : String :=
  if n < 10 then toString n.toNat ++ " B"
  else
    let power := (Float.floor (Float.log n.toFloat / Float.log 1000)).toUInt64.toNat
    let unit := byteUnits.getD power ""
    let tenths :=
      (Float.floor (n.toFloat / (Float.ofNat (Nat.pow 1000 power)) * 10 + 0.5)).toUInt64.toNat
    if tenths < 100 then
      toString (tenths / 10) ++ "." ++ toString (tenths % 10) ++ " " ++ unit
    else toString (wholeFromTenths tenths) ++ " " ++ unit

end ConvNest.Text
