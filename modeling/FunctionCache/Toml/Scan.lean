/-!
# Scanning characters

A scanner takes characters from the front of a text; without an answer it
refuses the text. Loops are bounded by the length of what is left: a round that
goes on has taken at least one character.
-/

namespace FunctionCache.Toml

/-- A scanner: what is left of the text is its state. -/
abbrev Scan := StateT (List Char) Option

namespace Scan

/-- Refuses the text. -/
def refuse {α : Type} : Scan α := fun _ => none

/-- The next character, which stays. -/
def peek? : Scan (Option Char) := return (← get).head?

/-- Takes a character that satisfies `p`. -/
def satisfy (p : Char → Bool) : Scan Char := fun
  | c :: rest => if p c then some (c, rest) else none
  | [] => none

/-- Takes the character `c`. -/
def char (c : Char) : Scan Unit := discard (satisfy (· == c))

/-- Takes the characters of `expected` if they come next. -/
def tryString (expected : List Char) : Scan Bool := fun cs =>
  if expected.isPrefixOf cs then some (true, cs.drop expected.length) else some (false, cs)

/-- Takes characters as long as they satisfy `p`. -/
def takeWhile (p : Char → Bool) : Scan (List Char) := fun cs =>
  some (cs.takeWhile p, cs.dropWhile p)

/-- At most `rounds` rounds, until one has no answer; more rounds are refused. -/
def repeated {α : Type} (round : Scan (Option α)) : Nat → Scan (List α)
  | 0 => refuse
  | rounds + 1 => do
    match ← round with
    | none => return []
    | some x => return x :: (← repeated round rounds)

/-- Rounds until one has no answer; each of the others takes at least one character. -/
def many {α : Type} (round : Scan (Option α)) : Scan (List α) := do
  repeated round ((← get).length + 1)

/-! ## Blanks and comments -/

def isBlank (c : Char) : Bool := c == ' ' || c == '\t'

/-- Control characters other than the tab have no place in strings and comments. -/
def isText (c : Char) : Bool := c == '\t' || (0x20 ≤ c.toNat && c.toNat != 0x7f)

/-- Takes blanks on a line. -/
def blanks : Scan Unit := discard (takeWhile isBlank)

/-- Takes the end of a line if it comes next. -/
def tryNewline : Scan Bool := do
  if ← tryString ['\n'] then return true else tryString ['\r', '\n']

/-- Takes a comment if one comes next. -/
def tryComment : Scan Bool := do
  if ← tryString ['#'] then
    discard (takeWhile isText)
    return true
  else return false

/-- Takes blanks, comments and ends of lines. -/
def blankLines : Scan Unit := do
  blanks
  discard <| many do
    if (← tryNewline) || (← tryComment) then
      blanks
      return some ()
    else return none

/-- Takes the rest of a line, which holds at most a comment, and its end. -/
def endOfLine : Scan Unit := do
  blanks
  discard tryComment
  unless ← tryNewline do
    if (← peek?).isSome then refuse

end Scan

end FunctionCache.Toml
