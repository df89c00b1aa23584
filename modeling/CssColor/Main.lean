import CssColor.CommandLine.Run
import CssColor.Number.Double

/-!
# The program

Resolves the value on the command line and prints its output.
-/

/-- Runs the command line: the output goes to the standard output, and what is wrong to the standard
error. -/
def main (arguments : List String) : IO UInt32 := do
  let outcome := CssColor.CommandLine.run CssColor.Double arguments
  (← IO.getStdout).putStr outcome.output
  if outcome.report != "" then
    (← IO.getStderr).putStrLn outcome.report
  return outcome.code
