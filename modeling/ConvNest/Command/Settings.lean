/-
# Flags of the command

A flag is given as `-name=value`, `-name value` or with two dashes; a switch also as `-name` alone.
Flags end at the first argument that is not one, or after `--`.
-/
import ConvNest.Command.Complaint
import ConvNest.Text.Blank

namespace ConvNest.Command

/-- The values of all flags. -/
structure Settings where
  input : List Int64 := [1, 64, 58, 58]
  filter : List Int64 := [64, 64, 3, 3]
  strides : List Int64 := [1, 1]
  element : String := "f32"
  accumulator : String := ""
  vectorWidth : Int64 := Schedule.Problem.defaultVectorWidth
  heuristic : String := "half"
  force : String := ""
  skipSwap : Bool := false
  printProgram : Bool := false
  verify : Bool := false
  report : Bool := true
  noColor : Bool := false
  sweep : Bool := false
  sweepChannels : List Int64 := [16, 32, 64, 128, 256, 512]
  sweepSizes : List Int64 := [7, 14, 28, 56, 112]
  sweepFilters : List Int64 := [1, 3, 5]
  sweepTable : String := ""
  sweepPlot : String := ""
  sweepParallelism : Int64 := -1
  deriving Repr, Inhabited

/-- Reads a list of items, separated by commas and with blanks around them.  The empty text is the
empty list. -/
def readList {α : Type} (item : String → Except Complaint α) (s : String) :
    Except Complaint (List α) :=
  if s == "" then .ok [] else (s.splitOn ",").mapM fun part => item (Text.trim part)

/-- Reads a decimal number. -/
def readNumber (s : String) : Except Complaint Int64 :=
  (Text.readDecimal s).mapError (.number s)

/-- Reads an element type. -/
def readElement (s : String) : Except Complaint Element :=
  match Element.ofName? s with
  | some e => .ok e
  | none => .error (.unknownElement (Element.foldName s))

/-- The value of an integer flag. -/
def readWord (s : String) : Except Complaint Int64 :=
  (Text.readLiteral s).mapError fun
    | .form => .flagForm
    | .range => .flagRange

/-- The value of a switch. -/
def readSwitch (s : String) : Except Complaint Bool :=
  match Text.readBool s with
  | some b => .ok b
  | none => .error .flagForm

/-- What can be set by a flag. -/
inductive Flag where
  | numbers (set : List Int64 → Settings → Settings)
  | text (set : String → Settings → Settings)
  | word (set : Int64 → Settings → Settings)
  | switch (set : Bool → Settings → Settings)

namespace Flag

/-- Whether a flag needs no value. -/
def isSwitch : Flag → Bool
  | switch _ => true
  | _ => false

/-- Gives a flag a value. -/
def apply (f : Flag) (value : String) (s : Settings) : Except Complaint Settings :=
  match f with
  | numbers set => do return set (← readList readNumber value) s
  | text set => .ok (set value s)
  | word set => do return set (← readWord value) s
  | switch set => do return set (← readSwitch value) s

/-- All flags. -/
def all : List (String × Flag) :=
  [("input", .numbers fun v s => { s with input := v }),
    ("filter", .numbers fun v s => { s with filter := v }),
    ("strides", .numbers fun v s => { s with strides := v }),
    ("dtype", .text fun v s => { s with element := v }),
    ("acc_dtype", .text fun v s => { s with accumulator := v }),
    ("vector_width", .word fun v s => { s with vectorWidth := v }),
    ("heuristic", .text fun v s => { s with heuristic := v }),
    ("force", .text fun v s => { s with force := v }),
    ("skip_swap", .switch fun v s => { s with skipSwap := v }),
    ("print_ir", .switch fun v s => { s with printProgram := v }),
    ("verify", .switch fun v s => { s with verify := v }),
    ("report", .switch fun v s => { s with report := v }),
    ("no_color", .switch fun v s => { s with noColor := v }),
    ("sweep", .switch fun v s => { s with sweep := v }),
    ("sweep_channels", .numbers fun v s => { s with sweepChannels := v }),
    ("sweep_sizes", .numbers fun v s => { s with sweepSizes := v }),
    ("sweep_filters", .numbers fun v s => { s with sweepFilters := v }),
    ("sweep_csv", .text fun v s => { s with sweepTable := v }),
    ("sweep_plot", .text fun v s => { s with sweepPlot := v }),
    ("sweep_parallelism", .word fun v s => { s with sweepParallelism := v })]

/-- The flag of a name. -/
def find? (name : String) : Option Flag := all.lookup name

end Flag

namespace Settings

/-- Sets a flag by its name. -/
def setFlag (s : Settings) (name value : String) : Except Complaint Settings :=
  match Flag.find? name with
  | some f => f.apply value s
  | none => .error (.noSuchFlag name)

end Settings

/-- Why arguments are not read to the end. -/
inductive Refusal where
  /-- The usage was asked for. -/
  | usage
  /-- A flag is malformed, unknown, without a value or with a bad one. -/
  | bad
  deriving DecidableEq, Repr

/-- An argument that is a flag: its name, and the value after an equals sign. -/
structure Given where
  name : String
  value : Option String
  deriving DecidableEq, Repr

/-- What an argument is. -/
inductive Argument where
  /-- The first argument that is not a flag. -/
  | plain
  /-- The end of the flags. -/
  | stop
  | malformed
  | flag (given : Given)
  deriving DecidableEq, Repr

/-- Splits the text after the dashes at the first equals sign that is not its first character. -/
def splitValue (cs : List Char) : Given :=
  let name := cs.take 1 ++ (cs.drop 1).takeWhile (· ≠ '=')
  match cs.drop name.length with
  | [] => ⟨String.ofList name, none⟩
  | _ :: value => ⟨String.ofList name, some (String.ofList value)⟩

/-- Tells what an argument is. -/
def Argument.ofText (arg : String) : Argument :=
  let body (cs : List Char) : Argument :=
    match cs with
    | [] | '-' :: _ | '=' :: _ => .malformed
    | _ => .flag (splitValue cs)
  match arg.toList with
  | '-' :: '-' :: [] => .stop
  | '-' :: '-' :: cs => body cs
  | '-' :: [] => .plain
  | '-' :: cs => body cs
  | _ => .plain

/-- Gives a flag its value, and a refusal if it does not take it. -/
def applyFlag (f : Flag) (value : String) (s : Settings) : Except Refusal Settings :=
  (f.apply value s).mapError fun _ => .bad

/-- Reads the flags before the first other argument. -/
def parse (s : Settings) : List String → Except Refusal Settings
  | [] => .ok s
  | arg :: rest =>
    match Argument.ofText arg with
    | .plain | .stop => .ok s
    | .malformed => .error .bad
    | .flag given =>
      match Flag.find? given.name, given.value with
      | none, _ => .error (if given.name == "help" || given.name == "h" then .usage else .bad)
      | some f, some value => do parse (← applyFlag f value s) rest
      | some f, none =>
        if f.isSwitch then do parse (← applyFlag f "true" s) rest
        else match rest with
          | [] => .error .bad
          | value :: rest => do parse (← applyFlag f value s) rest

end ConvNest.Command
