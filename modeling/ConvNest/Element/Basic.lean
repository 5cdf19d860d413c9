/-
# Element types

The types of the elements of tensors: their two names, their size, and the kinds of arithmetic that
apply to them.

The tables stand for a library of element types that is not part of the program.  That its names,
numbers and sizes are the ones written here is an assumption about it: they are what it has shown
in runs, and no statement about them is derived from a text of its own.
-/
import ConvNest.Text.Blank
import ConvNest.Text.Lower
import ConvNest.Text.Quoted

namespace ConvNest

/-- The type of the elements of a tensor. -/
inductive Element where
  | invalid
  | bool
  | int8
  | int16
  | int32
  | int64
  | uint8
  | uint16
  | uint32
  | uint64
  | float16
  | float32
  | float64
  | bfloat16
  | complex64
  | complex128
  | f8e5m2
  | s4
  | token
  deriving DecidableEq, Repr, Inhabited

namespace Element

/-- The long name, as in shapes and messages. -/
def name : Element → String
  | invalid => "InvalidDType"
  | bool => "Bool"
  | int8 => "Int8"
  | int16 => "Int16"
  | int32 => "Int32"
  | int64 => "Int64"
  | uint8 => "Uint8"
  | uint16 => "Uint16"
  | uint32 => "Uint32"
  | uint64 => "Uint64"
  | float16 => "Float16"
  | float32 => "Float32"
  | float64 => "Float64"
  | bfloat16 => "BFloat16"
  | complex64 => "Complex64"
  | complex128 => "Complex128"
  | f8e5m2 => "F8E5M2"
  | s4 => "S4"
  | token => "TOKEN"

/-- The number of the type in the enumeration of all element types. -/
def number : Element → Nat
  | invalid => 0
  | bool => 1
  | int8 => 2
  | int16 => 3
  | int32 => 4
  | int64 => 5
  | uint8 => 6
  | uint16 => 7
  | uint32 => 8
  | uint64 => 9
  | float16 => 10
  | float32 => 11
  | float64 => 12
  | bfloat16 => 13
  | complex64 => 14
  | complex128 => 15
  | f8e5m2 => 16
  | s4 => 21
  | token => 23

/-- The types that programs are written with, each with its short name. -/
def shortNames : List (Element × String) :=
  [(bool, "i1"), (int8, "i8"), (int16, "i16"), (int32, "i32"), (int64, "i64"),
    (uint8, "ui8"), (uint16, "ui16"), (uint32, "ui32"), (uint64, "ui64"),
    (float16, "f16"), (bfloat16, "bf16"), (float32, "f32"), (float64, "f64")]

/-- The short name, as in printed programs: `f32`, `i8`, `bf16`. -/
def shortName (e : Element) : String :=
  match shortNames.lookup e with
  | some s => s
  | none => Text.lower e.name

/-- Whether the type is a signed or unsigned integer; truth values are not. -/
def isInteger : Element → Bool
  | int8 | int16 | int32 | int64 | uint8 | uint16 | uint32 | uint64 => true
  | _ => false

/-- Whether the type is an unsigned integer. -/
def isUnsigned : Element → Bool
  | uint8 | uint16 | uint32 | uint64 => true
  | _ => false

/-- Whether the type is a floating point number, half precision included. -/
def isFloat : Element → Bool
  | float16 | float32 | float64 | bfloat16 => true
  | _ => false

/-- The size of an element in bytes, for the types that can be stored. -/
def size? : Element → Option Nat
  | bool | int8 | uint8 => some 1
  | int16 | uint16 | float16 | bfloat16 => some 2
  | int32 | uint32 | float32 => some 4
  | int64 | uint64 | float64 | complex64 => some 8
  | complex128 => some 16
  | invalid | f8e5m2 | s4 | token => none

/-- The number of bits of a stored element. -/
def bits? (e : Element) : Option Nat := e.size?.map (8 * ·)

/-- How a scalar is converted to a wider type. -/
inductive Widening where
  /-- A sign extension between integers. -/
  | extendInt
  /-- A conversion of a signed integer to a float. -/
  | intToFloat
  /-- An extension between floats. -/
  | extendFloat
  deriving DecidableEq, Repr

/-- The conversion from one type to a wider one, if there is one. -/
def widening? (src dst : Element) : Option Widening :=
  let wider := match src.bits?, dst.bits? with
    | some a, some b => decide (a < b)
    | _, _ => false
  if src.isInteger && dst.isInteger && wider then some .extendInt
  else if src.isInteger && dst.isFloat then some .intToFloat
  else if src.isFloat && dst.isFloat && wider then some .extendFloat
  else none

/-- Whether a value of one type can be accumulated in the other. -/
def canWiden (src dst : Element) : Bool := src == dst || (widening? src dst).isSome

/-- The folded spelling of a type name: blanks at its ends are dropped and case is ignored. -/
def foldName (s : String) : String := Text.lower (Text.trim s)

/-- The type with the given short or long name, of those that programs are written with. -/
def ofName? (s : String) : Option Element :=
  (shortNames.find? fun p => foldName s == p.2 || foldName s == Text.lower p.1.name).map (·.1)

end Element

end ConvNest
