/-
# Memory hierarchies

The caches of a machine: how many bytes of each level can be used, how many cycles an access takes,
the size of a cache line, and the number of vector registers.
-/
import ConvNest.Text.Basic

namespace ConvNest.Schedule

/-- A memory hierarchy. -/
structure Arch where
  l1 : Int64
  l2 : Int64
  l3 : Int64
  l1Latency : Int64
  l2Latency : Int64
  l3Latency : Int64
  memLatency : Int64
  cacheLine : Int64
  vectorRegisters : Int64
  deriving DecidableEq, Repr, Inhabited

namespace Arch

/-- The part of a cache that can be used: nine tenths, in whole bytes. -/
def usable (bytes : Int64) : Int64 := bytes * 90 / 100

/-- Caches of 32 KiB, 1 MiB and 4 MiB with lines of 128 bytes, and 32 vector registers. -/
def standard : Arch :=
  { l1 := usable 32768
    l2 := usable 1048576
    l3 := usable 4194304
    l1Latency := 2
    l2Latency := 10
    l3Latency := 30
    memLatency := 300
    cacheLine := 128
    vectorRegisters := 32 }

/-- A hierarchy of which nothing is given. -/
def unset : Arch := ⟨0, 0, 0, 0, 0, 0, 0, 0, 0⟩

/-- All fields. -/
def fields (a : Arch) : List Int64 :=
  [a.l1, a.l2, a.l3, a.l1Latency, a.l2Latency, a.l3Latency, a.memLatency, a.cacheLine,
    a.vectorRegisters]

/-- Whether all fields are positive. -/
def valid (a : Arch) : Bool := a.fields.all fun n => decide (0 < n)

/-- The text of a hierarchy. -/
def text (a : Arch) : String :=
  s!"\x7bL1:{Text.word a.l1} L2:{Text.word a.l2} L3:{Text.word a.l3} " ++
  s!"L1Latency:{Text.word a.l1Latency} L2Latency:{Text.word a.l2Latency} " ++
  s!"L3Latency:{Text.word a.l3Latency} MemLatency:{Text.word a.memLatency} " ++
  s!"CacheLine:{Text.word a.cacheLine} VectorRegisters:{Text.word a.vectorRegisters}\x7d"

end Arch

end ConvNest.Schedule
