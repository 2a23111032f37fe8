import FunctionCache.Toml.Number
import FunctionCache.Toml.Scan

/-!
# Strings in TOML

A string stands between quotes: double ones, where a backslash starts an escape,
or single ones, where every character stands for itself. Between three quotes it
may span lines; an end of line right after the opening quotes is dropped, and up
to two quotes may come right before the closing ones. A backslash at the end of
a line drops everything up to the next character that is not blank.
-/

namespace FunctionCache.Toml.Quoted

open Scan

/-- Takes a character given by `count` hexadecimal digits of its number. -/
def codePoint (count : Nat) : Scan Char := do
  let cs ← get
  let ds := cs.take count
  let n := Digits.number 16 ds
  if ds.length = count ∧ ds.all (Digits.isOf 16) ∧ n.isValidChar then
    set (cs.drop count)
    return Char.ofNat n
  else refuse

/-- Takes an escape, behind its backslash. -/
def escape : Scan Char := do
  match ← satisfy fun _ => true with
  | 'b' => return '\x08'
  | 't' => return '\t'
  | 'n' => return '\n'
  | 'f' => return '\x0c'
  | 'r' => return '\r'
  | 'e' => return '\x1b'
  | '"' => return '"'
  | '\\' => return '\\'
  | 'x' => codePoint 2
  | 'u' => codePoint 4
  | 'U' => codePoint 8
  | _ => refuse

/-- Takes a string on one line, behind its opening quote. -/
def line (quote : Char) (escapes : Bool) : Scan String := do
  let cs ← many do
    match ← satisfy fun _ => true with
    | c =>
      if c == quote then return none
      else if c == '\\' && escapes then some <$> escape
      else if isText c then return some c
      else refuse
  return String.ofList cs

/-- Drops blanks and ends of lines. -/
def dropBlankLines : List Char → List Char
  | '\r' :: '\n' :: rest => dropBlankLines rest
  | c :: rest => if isBlank c || c == '\n' then dropBlankLines rest else c :: rest
  | [] => []

/-- What is left behind a backslash that ends a line, if this one does. -/
def foldedLine? (cs : List Char) : Option (List Char) :=
  match cs.dropWhile isBlank with
  | '\n' :: rest | '\r' :: '\n' :: rest => some (dropBlankLines rest)
  | _ => none

/-- Takes the rest of a string over several lines, at most `rounds` pieces of it. -/
def linesRest (quote : Char) (escapes : Bool) : Nat → Scan (List Char)
  | 0 => refuse
  | rounds + 1 => do
    let cs ← get
    match cs with
    | [] => refuse
    | '\r' :: '\n' :: rest =>
      set rest
      return '\r' :: '\n' :: (← linesRest quote escapes rounds)
    | c :: rest =>
      let quotes := (cs.takeWhile (· == quote)).length
      if 3 ≤ quotes then
        set (cs.drop (min quotes 5))
        return List.replicate (min quotes 5 - 3) quote
      else if c == '\\' && escapes then
        match foldedLine? rest with
        | some rest =>
          set rest
          linesRest quote escapes rounds
        | none =>
          set rest
          return (← escape) :: (← linesRest quote escapes rounds)
      else if isText c || c == '\n' then
        set rest
        return c :: (← linesRest quote escapes rounds)
      else refuse

/-- Takes a string over several lines, behind its opening quotes. -/
def lines (quote : Char) (escapes : Bool) : Scan String := do
  discard tryNewline
  return String.ofList (← linesRest quote escapes ((← get).length + 1))

/-- Takes a string, if one comes next. -/
def tryString? : Scan (Option String) := do
  if ← tryString ['"', '"', '"'] then some <$> lines '"' true
  else if ← tryString ['\'', '\'', '\''] then some <$> lines '\'' false
  else if ← tryString ['"'] then some <$> line '"' true
  else if ← tryString ['\''] then some <$> line '\'' false
  else return none

end FunctionCache.Toml.Quoted
