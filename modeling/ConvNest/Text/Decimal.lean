/-
# Shortest decimals

A double is written with the fewest decimal digits that read back as the same double, and among
those with the digits nearest to its value.

The double is decoded to `mant * 2 ^ expo`, and the reals that round to it form an interval around
it: half a unit in the last place on both sides (a quarter below a power of two), ends included when
the mantissa is even.  For 1, 2, ... 17 digits the two neighbours of the value on that decimal grid
are tested in exact arithmetic, and the first grid with a hit wins.

`Layout` holds what a format decides beside the digits; `general` is the format of the printed
programs and tensors: positional for decimal exponents from -4 to 5, and otherwise an exponent with
a sign and at least two digits.
-/
namespace ConvNest.Text

/-- A positive rational number `num / den`. -/
structure Ratio where
  num : Nat
  den : Nat

/-- Whether `x < y`. -/
def Ratio.lt (x y : Ratio) : Bool := x.num * y.den < y.num * x.den

/-- Whether `x ≤ y`. -/
def Ratio.le (x y : Ratio) : Bool := x.num * y.den ≤ y.num * x.den

/-- `m * b ^ e`. -/
def Ratio.scaled (m b : Nat) (e : Int) : Ratio :=
  if 0 ≤ e then ⟨m * Nat.pow b e.toNat, 1⟩ else ⟨m, Nat.pow b (-e).toNat⟩

/-- The number of decimal digits of `n`. -/
def digitCount (n : Nat) : Nat := (Nat.toDigits 10 n).length

/-- The decimal exponent of a positive ratio: `10 ^ e ≤ x < 10 ^ (e + 1)`. -/
def Ratio.decimalExponent (x : Ratio) : Int :=
  let e : Int := (digitCount x.num : Int) - digitCount x.den
  if (Ratio.scaled 1 10 e).le x then e else e - 1

/-- The reals that round to one double, with the double itself. -/
structure Rounding where
  value : Ratio
  low : Ratio
  high : Ratio
  closed : Bool

/-- Whether a ratio reads back as the double. -/
def Rounding.holds (r : Rounding) (x : Ratio) : Bool :=
  if r.closed then r.low.le x && x.le r.high else r.low.lt x && x.lt r.high

/-- The rounding interval of the finite double with the given exponent and fraction bits, which
are not both zero. -/
def Rounding.ofFields (biased fraction : Nat) : Rounding :=
  let mant := if biased = 0 then fraction else Nat.pow 2 52 + fraction
  let expo : Int := if biased = 0 then -1074 else biased - 1075
  let low :=
    if fraction = 0 && 1 < biased then Ratio.scaled (4 * mant - 1) 2 (expo - 2)
    else Ratio.scaled (2 * mant - 1) 2 (expo - 1)
  { value := Ratio.scaled mant 2 expo
    low := low
    high := Ratio.scaled (2 * mant + 1) 2 (expo - 1)
    closed := mant % 2 == 0 }

/-- A decimal number `0.d1d2d3... * 10 ^ point`, written without zeros at its end. -/
structure Digits where
  digits : List Char
  point : Int

/-- The decimal `m * 10 ^ e`, for a positive `m`. -/
def Digits.ofScaled (m : Nat) (e : Int) : Digits :=
  let ds := Nat.toDigits 10 m
  { digits := (ds.reverse.dropWhile (· = '0')).reverse
    point := e + ds.length }

/-- The neighbour of the value with `n` digits that reads back, the nearer one if both do. -/
def Rounding.onGrid (r : Rounding) (n : Nat) : Option Digits :=
  let e : Int := r.value.decimalExponent - n + 1
  let unit := Ratio.scaled 1 10 e
  let below := r.value.num * unit.den / (r.value.den * unit.num)
  let grid (m : Nat) := Ratio.scaled m 10 e
  let lowOk := r.holds (grid below)
  let highOk := r.holds (grid (below + 1))
  -- twice the value lies below the sum of the neighbours when the lower one is nearer
  let twice : Ratio := ⟨2 * r.value.num, r.value.den⟩
  let middle := grid (2 * below + 1)
  if lowOk && highOk then
    let upper := middle.lt twice || (!twice.lt middle && below % 2 == 1)
    some (Digits.ofScaled (if upper then below + 1 else below) e)
  else if lowOk then some (Digits.ofScaled below e)
  else if highOk then some (Digits.ofScaled (below + 1) e)
  else none

/-- The fewest digits that read back; seventeen are always enough. -/
def Rounding.shortest (r : Rounding) : Digits :=
  match (List.range 17).findSome? fun k => r.onGrid (k + 1) with
  | some d => d
  | none => ⟨['0'], 0⟩

/-- What a number format decides beside the digits. -/
structure Layout where
  /-- The least decimal exponent that is written positionally. -/
  leastPositional : Int
  /-- The greatest decimal exponent that is written positionally. -/
  greatestPositional : Int
  /-- The least number of digits of an exponent. -/
  exponentWidth : Nat
  notANumber : String
  infinity : String
  minusInfinity : String

/-- Doubles in programs, tensors and messages: positional between 0.0001 and 999999, else with a
signed exponent of at least two digits. -/
def generalLayout : Layout :=
  { leastPositional := -4, greatestPositional := 5, exponentWidth := 2
    notANumber := "NaN", infinity := "+Inf", minusInfinity := "-Inf" }

/-- The digits with the point at its place. -/
def Digits.positional (d : Digits) : String :=
  let n := d.digits.length
  if d.point ≤ 0 then
    "0." ++ String.ofList (List.replicate (-d.point).toNat '0' ++ d.digits)
  else if n ≤ d.point.toNat then
    String.ofList (d.digits ++ List.replicate (d.point.toNat - n) '0')
  else
    String.ofList (d.digits.take d.point.toNat) ++ "." ++
      String.ofList (d.digits.drop d.point.toNat)

/-- The digits with one before the point, and an exponent. -/
def Digits.exponential (l : Layout) (d : Digits) : String :=
  let e := d.point - 1
  let ds := Nat.toDigits 10 e.natAbs
  let expo := String.ofList (List.replicate (l.exponentWidth - ds.length) '0' ++ ds)
  let tail := d.digits.drop 1
  String.ofList (d.digits.take 1) ++ (if tail.isEmpty then "" else "." ++ String.ofList tail) ++
    "e" ++ (if e < 0 then "-" else "+") ++ expo

/-- The text of the double with the given bits. -/
def Layout.ofBits (l : Layout) (bits : UInt64) : String :=
  let n := bits.toNat
  let negative := Nat.pow 2 63 ≤ n
  let biased := n / Nat.pow 2 52 % Nat.pow 2 11
  let fraction := n % Nat.pow 2 52
  if biased = 2047 then
    if fraction = 0 then (if negative then l.minusInfinity else l.infinity) else l.notANumber
  else
    let body :=
      if biased = 0 && fraction = 0 then "0"
      else
        let d := (Rounding.ofFields biased fraction).shortest
        if l.leastPositional ≤ d.point - 1 && d.point - 1 ≤ l.greatestPositional then d.positional
        else d.exponential l
    if negative then "-" ++ body else body

/-- The text of a double. -/
def general (x : Float) : String := generalLayout.ofBits x.toBits

end ConvNest.Text
