/-
# Running the command

What the command does with its arguments: the text it prints, the files it writes, and the code it
exits with.  It exits with 0 if all is well, with 1 after a complaint, and with 2 after a bad flag
or a fault.

Files are written in order after the text, and one that cannot be written ends the command with a
complaint.
-/
import ConvNest.Command.Check
import ConvNest.Command.Sweep
import ConvNest.Program.Printer
import ConvNest.Program.Verify
import ConvNest.Transform.Library

namespace ConvNest.Command

open Program

/-- A file to write. -/
structure File where
  path : String
  text : String
  deriving DecidableEq, Repr, Inhabited

/-- What the command does. -/
structure Outcome where
  stdout : String
  files : List File
  exit : Nat
  deriving DecidableEq, Repr, Inhabited

/-- How the command can end early. -/
inductive End where
  | complaint
  | fault
  deriving DecidableEq, Repr

/-- The exit code of an early end. -/
def End.code : End → Nat
  | complaint => 1
  | fault => 2

/-- The state of the command: what it printed, and the program. -/
structure Work where
  stdout : String
  editor : Editor
  deriving Inhabited

/-- A part of the command. -/
abbrev Job := EStateM End Work

namespace Job

/-- Prints a line. -/
def printLine (s : String) : Job Unit := modify fun w => { w with stdout := w.stdout ++ s ++ "\n" }

/-- Prints a text as it is. -/
def print (s : String) : Job Unit := modify fun w => { w with stdout := w.stdout ++ s }

/-- Edits the program. -/
def edit {α : Type} (x : Edit α) : Job α := do
  match x (← get).editor with
  | .ok a e =>
    modify fun w => { w with editor := e }
    return a
  | .error _ e =>
    modify fun w => { w with editor := e }
    throw .fault

/-- Takes the answer of something that can complain. -/
def accept {ε α : Type} (x : ExceptT ε (Except Fault) α) : Job α :=
  match x.run with
  | .ok (.ok a) => pure a
  | .ok (.error _) => throw .complaint
  | .error _ => throw .fault

/-- Takes the answer of something that can only complain. -/
def expect {ε α : Type} : Except ε α → Job α
  | .ok a => pure a
  | .error _ => throw .complaint

end Job

open Job

/-- Checks the structure of a function. -/
def verifyFunc (f : FuncId) : Job Unit := do
  match (← get).editor.graph.verify f with
  | .ok () => return
  | .error (.defect _) => throw .complaint
  | .error (.fault _) => throw .fault

/-- Tiles the convolutions of a function, and keeps a copy of what it was. -/
def tileKeeping (f : FuncId) (c : Conv.Config) : Edit (FuncId × Transform.Outcome) := do
  let (copy, _) ← Edit.cloneFunc f
  let h ← Transform.matchKind f .conv
  return (copy, ← (Transform.convolution c).run f h)

/-- Schedules, tiles and checks one convolution. -/
def convolve (s : Settings) (cfg : Conv.Config) : Job Unit := do
  let c ← accept s.convolution
  let (f, conv) ← edit c.build
  let (plan, _) ← accept (Conv.plan (← get).editor.graph conv cfg)
  if s.report then
    let candidates ← expect (cfg.analyzer.candidates plan.problem)
    printLine (scheduleReport c plan)
    printLine (candidatesReport plan candidates)
  let (reference, outcome) ← edit (tileKeeping f cfg)
  let _ ← expect outcome.result
  verifyFunc f
  if s.printProgram then
    match (← get).editor.graph.print f with
    | .ok text => printLine text
    | .error _ => throw .fault
  if s.verify then
    print (← accept (check (← get).editor.graph c reference f))

/-- How a plot of a sweep ends the command: with a complaint if it has a format that it cannot be
saved in, and with a fault if there is nothing to draw. -/
def plotEnd (s : Settings) (rows : List SweepRow) : Option End :=
  if s.sweepPlot == "" then none
  else if !plotFormats.contains (pathEnding s.sweepPlot) then some .complaint
  else if undrawable rows then some .fault
  else none

/-- The files of a sweep.  A plot that cannot be saved is not among them, and one without anything
to draw is empty. -/
def sweepFiles (s : Settings) (rows : List SweepRow) (table : String) : List File :=
  let tables := if s.sweepTable == "" then [] else [⟨s.sweepTable, table⟩]
  let plots := match plotEnd s rows with
    | some .complaint => []
    | some .fault => [⟨s.sweepPlot, ""⟩]
    | none => if s.sweepPlot == "" then [] else [⟨s.sweepPlot, sweepPoints rows⟩]
  tables ++ plots

/-- What is left to do when everything is printed: the files to write, and the early end after
them. -/
structure Rest where
  files : List File := []
  early : Option End := none
  deriving Repr, Inhabited

/-- Runs a sweep. -/
def sweep (s : Settings) (cfg : Conv.Config) : Job Rest := do
  let problems := sweepProblems s.sweepChannels s.sweepSizes s.sweepFilters cfg.vectorWidth
  if problems.isEmpty then throw .complaint
  let rows ← expect (analyzeAll cfg s.sweepParallelism.toInt.toNat false problems)
  printLine (sweepReport rows)
  let table ← expect (sweepFile rows)
  return ⟨sweepFiles s rows table, plotEnd s rows⟩

/-- Does what the flags ask for. -/
def work (s : Settings) : Job Rest := do
  let cfg ← expect s.config
  if s.sweep then sweep s cfg
  else
    convolve s cfg
    return {}

/-- The exit code, with or without an early end. -/
def exitCode : Option End → Nat
  | none => 0
  | some e => e.code

/-- What the command does with the given flags. -/
def runSettings (s : Settings) : Outcome :=
  match (work s).run ⟨"", .empty⟩ with
  | .ok rest w => ⟨w.stdout, rest.files, exitCode rest.early⟩
  | .error e w => ⟨w.stdout, [], e.code⟩

/-- What the command does with its arguments. -/
def run (args : List String) : Outcome :=
  match parse {} args with
  | .ok s => runSettings s
  | .error .usage => ⟨"", [], 0⟩
  | .error .bad => ⟨"", [], 2⟩

/-- The paths that stand for the printed text. -/
def stdoutPaths : List String := ["/dev/stdout", "/dev/fd/1", "/proc/self/fd/1"]

/-- Prints what the command has to say and writes its files, in order, and gives the exit code; a
file that cannot be written ends the command. -/
def Outcome.perform {m : Type → Type} [Monad m] (print : String → m Unit) (write : File → m Bool)
    (o : Outcome) : m Nat := do
  print o.stdout
  writeAll o.files
where
  writeAll : List File → m Nat
    | [] => return o.exit
    | f :: fs => do
      if stdoutPaths.contains f.path then
        print f.text
        writeAll fs
      else if ← write f then writeAll fs
      else return 1

end ConvNest.Command
