/-
# Convolution problems

What the choice of a schedule depends on: the extents of a convolution with unit dilations, the
width of the vector registers, and the size of an accumulated element.
-/
import ConvNest.Pair

namespace ConvNest.Schedule

/-- The extents of a convolution. -/
structure Problem where
  batch : Int64
  inChannels : Int64
  outChannels : Int64
  filter : Pair
  output : Pair
  strides : Pair
  /-- The number of elements of a vector register. -/
  vectorWidth : Int64
  /-- The number of bytes of an accumulated element. -/
  elementSize : Int64
  deriving DecidableEq, Repr, Inhabited

namespace Problem

/-- The number of elements of a vector register, if not given. -/
def defaultVectorWidth : Int64 := 4

/-- The number of bytes of an element, if not given. -/
def defaultElementSize : Int64 := 4

/-- The number of output windows. -/
def windows (p : Problem) : Int64 := p.output.height * p.output.width

/-- The number of elements of a filter in one channel. -/
def filterArea (p : Problem) : Int64 := p.filter.height * p.filter.width

/-- The second word if the first one is zero. -/
def orDefault (n default : Int64) : Int64 := if n = 0 then default else n

/-- The problem with what is optional filled in. -/
def withDefaults (p : Problem) : Problem :=
  { p with
    vectorWidth := orDefault p.vectorWidth defaultVectorWidth
    elementSize := orDefault p.elementSize defaultElementSize
    strides := ⟨orDefault p.strides.height 1, orDefault p.strides.width 1⟩ }

/-- The fields that have to be positive, with their names. -/
def fields (p : Problem) : List (String × Int64) :=
  [("N", p.batch), ("IC", p.inChannels), ("OC", p.outChannels),
    ("FH", p.filter.height), ("FW", p.filter.width),
    ("OH", p.output.height), ("OW", p.output.width),
    ("SH", p.strides.height), ("SW", p.strides.width),
    ("V", p.vectorWidth), ("ElementSize", p.elementSize)]

/-- The first field that is not positive. -/
def badField? (p : Problem) : Option (String × Int64) := p.fields.find? fun f => decide (f.2 ≤ 0)

/-- The text of a problem. -/
def text (p : Problem) : String :=
  s!"conv\x7bn={Text.word p.batch}, ic={Text.word p.inChannels}, oc={Text.word p.outChannels}, " ++
  s!"fh={Text.word p.filter.height}, fw={Text.word p.filter.width}, " ++
  s!"oh={Text.word p.output.height}, ow={Text.word p.output.width}, " ++
  s!"strides=({Text.word p.strides.height}, {Text.word p.strides.width}), " ++
  s!"v={Text.word p.vectorWidth}, bytes={Text.word p.elementSize}\x7d"

end Problem

end ConvNest.Schedule
