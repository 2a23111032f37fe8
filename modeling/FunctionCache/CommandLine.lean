import FunctionCache.Example

/-!
# The command line

The program takes the number of an example and prints its lines.
-/

namespace FunctionCache.CommandLine

/-- Reads a number of 64 bits in decimal digits, with a plus sign in front or not. -/
def unsigned? (arg : String) : Option Nat :=
  let digits := match arg.toList with
    | '+' :: cs => cs
    | cs => cs
  let n := digits.foldl (fun n c => 10 * n + (c.toNat - '0'.toNat)) 0
  if !digits.isEmpty && digits.all Char.isDigit && n ≤ 18446744073709551615 then some n else none

/-- The example that the arguments ask for: the number that is their first one, else 0. -/
def exampleNumber (args : List String) : Nat := (args.head?.bind unsigned?).getD 0

/-- The lines of the example that the arguments ask for. -/
def lines (args : List String) : Except Failure (List ExampleLine) :=
  Example.lines (exampleNumber args)

/-- The counts of a cache, as a line. -/
def statisticsText (s : Statistics) : String :=
  let counts := s.toList.map fun (label, n) => "\"" ++ label ++ "\": " ++ toString n
  "statistics \x7b" ++ ", ".intercalate counts ++ "\x7d"

/-- A duration of so many nanoseconds, in milliseconds. -/
def durationText (nanos : Nat) : String :=
  let fraction := toString (nanos % 1000000)
  let zeros := String.ofList (List.replicate (6 - fraction.length) '0')
  toString (nanos / 1000000) ++ "." ++ zeros ++ fraction ++ "ms"

end FunctionCache.CommandLine
