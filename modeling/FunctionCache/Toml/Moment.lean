import FunctionCache.Toml.Value

/-!
# Dates and times in TOML

A date is `YYYY-MM-DD`, a time `HH:MM` with optional seconds and digits of a
second. A date and a time are joined by `T`, `t` or a space and may end in an
offset: `Z`, `z`, or hours and minutes with a sign. Dates follow the calendar;
the second 60 is a leap second.
-/

namespace FunctionCache.Toml

namespace Moment

/-- Takes a number of exactly `count` digits. -/
def number (count : Nat) (cs : List Char) : Option (Nat × List Char) :=
  let ds := cs.take count
  if ds.length = count ∧ ds.all Char.isDigit then
    some (ds.foldl (fun n c => 10 * n + (c.toNat - '0'.toNat)) 0, cs.drop count)
  else none

/-- Takes the character `c`. -/
def mark (c : Char) : List Char → Option (List Char)
  | d :: cs => if c = d then some cs else none
  | [] => none

def isLeapYear (year : Nat) : Bool := year % 4 == 0 && (year % 100 != 0 || year % 400 == 0)

/-- The number of days of a month. -/
def daysOf (year month : Nat) : Nat :=
  if month = 2 then if isLeapYear year then 29 else 28
  else if month ∈ [4, 6, 9, 11] then 30
  else 31

/-- Takes a date. -/
def date (cs : List Char) : Option (Date × List Char) := do
  let (year, cs) ← number 4 cs
  let (month, cs) ← number 2 (← mark '-' cs)
  let (day, cs) ← number 2 (← mark '-' cs)
  if 1 ≤ month ∧ month ≤ 12 ∧ 1 ≤ day ∧ day ≤ daysOf year month then
    return (⟨year, month, day⟩, cs)
  else none

/-- Takes hours and minutes. -/
def hourMinute (cs : List Char) : Option ((Nat × Nat) × List Char) := do
  let (hour, cs) ← number 2 cs
  let (minute, cs) ← number 2 (← mark ':' cs)
  if hour ≤ 23 ∧ minute ≤ 59 then return ((hour, minute), cs) else none

/-- Takes the digits of a second, at least one, behind a point. -/
def fraction : List Char → Option (List Nat × List Char)
  | '.' :: cs =>
    let ds := cs.takeWhile Char.isDigit
    if ds.isEmpty then none
    else some (ds.map fun c => c.toNat - '0'.toNat, cs.dropWhile Char.isDigit)
  | cs => some ([], cs)

/-- Takes a time of day. -/
def time (cs : List Char) : Option (Time × List Char) := do
  let ((hour, minute), cs) ← hourMinute cs
  match cs with
  | ':' :: cs =>
    let (second, cs) ← number 2 cs
    let (digits, cs) ← fraction cs
    -- 60 is a leap second
    if second ≤ 60 then return (⟨hour, minute, second, digits⟩, cs) else none
  -- a time without seconds
  | cs => return (⟨hour, minute, 0, []⟩, cs)

/-- Reads an offset from UTC in minutes. -/
def offset? : List Char → Option Int
  | ['Z'] | ['z'] => some 0
  | s :: cs => do
    let ((hour, minute), rest) ← hourMinute cs
    let minutes : Int := 60 * hour + minute
    if !rest.isEmpty then none
    else if s = '+' then some minutes
    else if s = '-' then some (-minutes)
    else none
  | [] => none

/-- What may stand between a date and a time. -/
def isSeparator (c : Char) : Bool := c == 'T' || c == 't' || c == ' '

/-- Reads a date, a time or both. -/
def dateTime? (cs : List Char) : Option DateTime :=
  match date cs with
  | none => do
    let (t, rest) ← time cs
    if rest.isEmpty then return .time t else none
  | some (d, []) => some (.date d)
  | some (d, separator :: cs) => do
    if !isSeparator separator then none
    let (t, rest) ← time cs
    if rest.isEmpty then return .dateTime d t
    else return .offsetDateTime d t (← offset? rest)

end Moment

end FunctionCache.Toml
