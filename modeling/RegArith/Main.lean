import RegArith.CommandLine.Run

/-!
# The program

Runs the command line on the files of the machine.
-/

namespace RegArith

/-- Access to the files of the machine. -/
def machineFiles : FileAccess IO where
  read path := do
    try return String.fromUTF8? (← IO.FS.readBinFile path)
    catch _ => return none
  write path text := do
    try
      IO.FS.writeFile path text
      return true
    catch _ => return false

end RegArith

/-- Runs the command line and exits with its status. -/
def main (arguments : List String) : IO UInt32 := do
  let report ← RegArith.runCommandLine RegArith.machineFiles arguments
  IO.print report.output
  IO.eprint report.errors
  return report.status.toUInt32
