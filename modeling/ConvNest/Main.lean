/-
# The command

Prints what the command has to say, writes its files, and exits with its code.
-/
import ConvNest.Command.Session

open ConvNest.Command

/-- Writes a file, if that is possible. -/
def writeFile (f : File) : IO Bool :=
  try
    IO.FS.writeFile f.path f.text
    return true
  catch _ => return false

/-- Runs the command. -/
def main (args : List String) : IO UInt32 := do
  return .ofNat (← (run args).perform IO.print writeFile)
