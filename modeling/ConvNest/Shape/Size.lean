/-
# Sizes, strides and checks of shapes

What can be asked of a shape and may fail.  Sizes are products of words, and wrap around.
-/
import ConvNest.Fault
import ConvNest.Word

namespace ConvNest.Shape

/-- The shape with the given dimensions, each positive or the word for a dynamic one. -/
def make (e : Element) (ns : List Int64) : Except Fault Shape :=
  let s : Shape := ⟨e, ns.map Dim.ofWord⟩
  if ns.all fun n => decide (0 < n) || n == Dim.dynamicWord then .ok s
  else .error (.dimNotPositive s)

/-- The dimension of an axis; negative axes count from the end. -/
def dimAt (s : Shape) (axis : Int64) : Except Fault Dim :=
  let i := if axis < 0 then axis + Word.length s.dims else axis
  match Word.at? s.dims i with
  | some d => .ok d
  | none => .error (.axisOutOfRange axis s)

/-- The product of words. -/
def product (ns : List Int64) : Int64 := ns.foldl (· * ·) 1

/-- The number of elements. -/
def size (s : Shape) : Except Fault Int64 :=
  if s.isStatic then .ok (product s.words) else .error (.sizeOfDynamic s)

/-- The size of an element in bytes. -/
def elementSize (e : Element) : Except Fault Nat :=
  match e.size? with
  | some n => .ok n
  | none => .error (.unknownSize e)

/-- The number of bytes of all elements. -/
def memory (s : Shape) : Except Fault UInt64 := do
  let bytes ← elementSize s.elem
  return UInt64.ofNat bytes * (← s.size).toUInt64

/-- The row-major strides of the given sizes, with the product of all of them. -/
def stridesOf : List Int64 → List Int64 × Int64
  | [] => ([], 1)
  | n :: ns =>
    let (rest, total) := stridesOf ns
    (total :: rest, total * n)

/-- The distance between neighbours along each axis, in row-major order. -/
def strides (s : Shape) : Except Fault (List Int64) :=
  if s.isStatic then .ok (stridesOf s.words).1 else .error (.stridesOfDynamic s)

/-- The wanted dimension that matches any other. -/
def anyDim : Int64 := -2

/-- Checks dimensions one by one, from the given axis on. -/
def checkAxes (s : Shape) (wanted : List Int64) :
    Nat → List Int64 → List Int64 → Except ShapeMismatch Unit
  | i, found :: fs, want :: ws =>
    if want ≠ anyDim ∧ found ≠ want then .error (.axis s i found want wanted)
    else checkAxes s wanted (i + 1) fs ws
  | _, _, _ => .ok ()

/-- Checks the rank. -/
def checkRank (s : Shape) (n : Int64) : Except ShapeMismatch Unit :=
  if Word.length s.dims = n then .ok () else .error (.rank s n)

/-- Checks rank and dimensions; `anyDim` matches every dimension. -/
def checkDims (s : Shape) (wanted : List Int64) : Except ShapeMismatch Unit :=
  if s.dims.length = wanted.length then checkAxes s wanted 0 s.words wanted
  else .error (.rank s (Word.length wanted))

/-- Checks element type, rank and dimensions. -/
def check (s : Shape) (e : Element) (wanted : List Int64) : Except ShapeMismatch Unit :=
  if e = s.elem then s.checkDims wanted else .error (.element s e)

/-- Checks that all dimensions are known. -/
def checkStatic (s : Shape) : Except ShapeMismatch Unit :=
  match s.dims.findIdx? (!·.isStatic) with
  | some i => .error (.dynamic s i)
  | none => .ok ()

/-- Faults unless the dimensions match. -/
def assertDims (s : Shape) (wanted : List Int64) : Except Fault Unit :=
  (s.checkDims wanted).mapError (.assertedDims wanted)

/-- Faults unless the rank matches. -/
def assertRank (s : Shape) (n : Int64) : Except Fault Unit :=
  (s.checkRank n).mapError (.assertedRank n)

end ConvNest.Shape

namespace ConvNest.Program.Ty

/-- The type of tensors of a valid shape. -/
def ofShape (s : Shape) : Except Fault Ty :=
  if s.ok then .ok (.tensor s) else .error (.invalidShape s)

/-- The type of tensors with the given element type and dimensions. -/
def tensorOf (e : Element) (ns : List Int64) : Except Fault Ty := do
  ofShape (← Shape.make e ns)

end ConvNest.Program.Ty
