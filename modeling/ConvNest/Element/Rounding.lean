/-
# Elements as numbers

A stored element is rounded to its type: floats to their precision, integers to their width.
Half precision goes through single precision: `float16` rounds to the nearest with ties to even,
`bfloat16` drops the low half of the bits.

The two half precisions come from libraries that are not part of the program, so `roundHalf` and
`truncateHalf` are assumptions about them; so is that the operations of `Float` and `Float32` are
those of the machine.
-/
import ConvNest.Element.Basic

namespace ConvNest.Element

/-- `n / 2 ^ k` rounded to the nearest integer, a tie to the even one. -/
def roundShift (n k : Nat) : Nat :=
  let unit := Nat.pow 2 k
  let q := n / unit
  let twice := 2 * (n % unit)
  if twice < unit then q else if unit < twice then q + 1 else if q % 2 = 0 then q else q + 1

/-- A single precision number rounded to half precision: eleven bits of precision, units no smaller
than `2 ^ -24`, and infinity from `65520` on. -/
def roundHalf (x : Float32) : Float :=
  let bits : Nat := x.toBits.toNat
  let biased : Nat := bits / Nat.pow 2 23 % Nat.pow 2 8
  let fraction : Nat := bits % Nat.pow 2 23
  if biased = 255 then x.toFloat
  else
    let mant : Nat := if biased = 0 then fraction else Nat.pow 2 23 + fraction
    -- `mant` counts units of `2 ^ expo`
    let expo : Int := if biased = 0 then -149 else (biased : Int) - 150
    let unit : Int := max (expo + 13) (-24)
    let n := roundShift mant (unit - expo).toNat
    let size : Float :=
      if Nat.pow 2 16 ≤ n * Nat.pow 2 (unit + 24).toNat / Nat.pow 2 24 then 1.0 / 0.0
      else (Float.ofNat n).scaleB unit
    if Nat.pow 2 31 ≤ bits then -size else size

/-- A single precision number without the low half of its bits. -/
def truncateHalf (x : Float32) : Float := (Float32.ofBits (x.toBits &&& 0xFFFF0000)).toFloat

/-- A double rounded to a floating point type. -/
def roundFloat (e : Element) (x : Float) : Float :=
  match e with
  | float32 => x.toFloat32.toFloat
  | float16 => roundHalf x.toFloat32
  | bfloat16 => truncateHalf x.toFloat32
  | _ => x

/-- The integer of a type that the low bits of a word stand for; a truth value is one unless it is
zero. -/
def wrapInt (e : Element) (n : Int64) : Int64 :=
  match e with
  | int8 => n.toInt8.toInt64
  | int16 => n.toInt16.toInt64
  | int32 => n.toInt32.toInt64
  | uint8 => n.toUInt64.toUInt8.toUInt64.toInt64
  | uint16 => n.toUInt64.toUInt16.toUInt64.toInt64
  | uint32 => n.toUInt64.toUInt32.toUInt64.toInt64
  | bool => if n = 0 then 0 else 1
  | _ => n

/-- The low bits of an unsigned integer read as a signed integer of the same width. -/
def signExtend (e : Element) (n : Int64) : Int64 :=
  match e with
  | uint8 => n.toInt8.toInt64
  | uint16 => n.toInt16.toInt64
  | uint32 => n.toInt32.toInt64
  | _ => n

/-- A double as a word, toward zero; outside of the range of words it is the least word. -/
def truncate (x : Float) : Int64 :=
  if -9223372036854775808.0 ≤ x && x < 9223372036854775808.0 then x.toInt64 else Int64.minValue

/-- A word by way of a double: rounded to the nearest number of 53 bits, a tie to the even one.
What is then beyond the greatest word becomes the least one. -/
def throughDouble (n : Int64) : Int64 :=
  let size := n.toInt.natAbs
  let k := size.log2 + 1 - 53
  let rounded : Int := (roundShift size k * Nat.pow 2 k : Nat)
  Int64.ofInt (if n < 0 then -rounded else rounded)

end ConvNest.Element
