/-
# Complaints of the command

Everything that the command reports and stops at, with its text.
-/
import ConvNest.Failure
import ConvNest.Fault
import ConvNest.Pool
import ConvNest.Text.Decimal
import ConvNest.Text.Numeral

namespace ConvNest.Command

/-- Why the command stops. -/
inductive Complaint where
  -- flags
  | noSuchFlag (name : String)
  | flagForm
  | flagRange
  | number (text : String) (why : Text.NumeralError)
  | unknownElement (name : String)
  | unknownHeuristic (name : String)
  | forceForm (value : String)
  | forceStrategy (value name : String)
  | forceNumber (value part : String)
  -- convolutions
  | ranks (input filter strides : List Int64)
  | channels (input filter : Int64)
  | strides (strides : Pair)
  | filterFit (filter input : List Int64)
  | failure (why : Failure)
  -- checks
  | direct (why : Fault)
  | running (function name : String) (why : Fault)
  | differs (function : String) (difference : Float)
  -- sweeps
  | nothingToSweep
  | sweep (why : Pool.Stop Failure)
  | emptyFrame

namespace Complaint

/-- The text of a fault, empty for a stuck step. -/
def faultText (f : Fault) : String := f.message.getD ""

/-- The text of a complaint. -/
def message : Complaint → String
  | noSuchFlag name => s!"no such flag -{name}"
  | flagForm => "parse error"
  | flagRange => "value out of range"
  | number s why => s!"strconv.Atoi: parsing {Text.quoted s}: {why.message}"
  | unknownElement name => s!"unknown dtype {Text.quoted name}"
  | unknownHeuristic name => Schedule.Heuristic.unknownName name
  | forceForm v => s!"-force={Text.quoted v}: expected <strategy>:<k2>:<k3>:<tileC>"
  | forceStrategy v name => s!"-force={Text.quoted v}: {Schedule.Strategy.unknownName name}"
  | forceNumber v part =>
    s!"-force={Text.quoted v}: {Text.quoted part} is not a positive integer"
  | ranks i f s =>
    "-input and -filter must have 4 dimensions, and -strides 2 values: " ++
      s!"got {Text.words i}, {Text.words f} and {Text.words s}"
  | channels i f => s!"input has {Text.word i} channels, but filter expects {Text.word f}"
  | strides s => s!"strides must be positive, got {s.text}"
  | filterFit f i => s!"filter {Text.words f} doesn't fit in input {Text.words i}"
  | failure why => why.message
  | direct why => s!"direct convolution: {faultText why}"
  | running function name why =>
    s!"running the {function} function: interp.Run(@{name}): {faultText why}"
  | differs function d =>
    s!"{function} function differs from the direct convolution by up to {Text.general d}"
  | nothingToSweep =>
    "no problems to sweep, see -sweep_channels, -sweep_sizes and -sweep_filters"
  | sweep why => why.message Failure.message
  | emptyFrame =>
    "building the sweep dataframe: load: can't create DataFrame from empty slice"

end Complaint

end ConvNest.Command
