import FunctionCache.CommandLine

/-!
# The program

Prints the lines of an example, one after the other, and measures the time of
those that ask for it.
-/

namespace FunctionCache.CommandLine

/-- The message of a failure. -/
def failureText : Failure → String
  | .error e => e.message
  | .fault f => f.message

/-- Prints a line. -/
def printLine : ExampleLine → IO Unit
  | .text line => IO.println line
  | .statistics s => IO.println (statisticsText s)
  | .timed work => do
    let start ← IO.monoNanosNow
    match work () with
    | .ok line =>
      let stop ← IO.monoNanosNow
      IO.println (line ++ ", " ++ durationText (stop - start) ++ " elapsed")
    | .error e => IO.eprintln (failureText e)

end FunctionCache.CommandLine

/-- Prints the example that the arguments ask for. -/
def main (args : List String) : IO UInt32 := do
  match FunctionCache.CommandLine.lines args with
  | .ok lines =>
    lines.forM FunctionCache.CommandLine.printLine
    return 0
  | .error e =>
    IO.eprintln (FunctionCache.CommandLine.failureText e)
    return 1
