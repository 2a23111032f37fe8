import FunctionCache.Toml.Moment
import FunctionCache.Toml.Number

/-!
# Written TOML values

A value as a document writes it. Arrays and tables remember how they came about,
since this decides whether later lines may add to them.

Not every written value stands for one: an integer must consist of digits and fit
into 64 bits with a sign, and a finite number must not round to an infinity. A
table may also be the long form of a date or a time, which its least key tells;
then its other entries do not count, and need not stand for anything.

* `Written.moment?` — the value that makes a table the long form of a moment;
* `Written.denote?` — what a value under a key or in an array stands for;
* `WrittenTable.denote?` — what the root table of a document stands for, which
  is always a table.
-/

namespace FunctionCache.Toml

/-- How a table came about. -/
inductive TableKind
  /-- The root, or a table with a header of its own. -/
  | explicit
  /-- A table that a longer header passes through. -/
  | implied
  /-- A table that a dotted key passes through. -/
  | dotted
  /-- A table between braces, closed for good. -/
  | inline
deriving DecidableEq, Repr

/-- A value as written. `tables` is the array of the tables whose headers stand between double
brackets; `array` is one between brackets. -/
inductive Written
  | string (s : String)
  | integer (n : Numeral)
  | float (x : Decimal)
  | boolean (b : Bool)
  | datetime (t : DateTime)
  | array (items : List Written)
  | tables (items : List (List (String × Written)))
  | table (kind : TableKind) (entries : List (String × Written))

/-- A table as it has been written so far. -/
abbrev WrittenTable := Entries Written

/-- The key under which the long form of a date or a time holds its text. -/
def momentKey : String := "$__toml_private_datetime"

namespace Written

/-- The value under `momentKey`, if no other key of the table comes before it. -/
def moment? (t : WrittenTable) : Option Written :=
  if t.all fun (key, _) => momentKey ≤ key then t.get? momentKey else none

/-- The date or time whose text a string is. -/
def datetime? : Written → Option DateTime
  | string s => Moment.dateTime? s.toList
  | _ => none

/-- What a table below the root stands for, given what its entries stand for. -/
def denoteTable? (t : WrittenTable) (entries : Option Table) : Option Value :=
  match moment? t with
  | some v => .datetime <$> v.datetime?
  | none => .table <$> entries

mutual

/-- What a value below the root stands for. -/
def denote? : Written → Option Value
  | string s => some (.string s)
  | integer n => .integer <$> n.value?
  | float x => if x.isRepresentable then some (.float x) else none
  | boolean b => some (.boolean b)
  | datetime t => some (.datetime t)
  | array items => .array <$> denoteItems? items
  | tables items => .array <$> denoteTables? items
  | table _ entries => denoteTable? entries (denoteEntries? entries)

/-- What the items of an array stand for. -/
def denoteItems? : List Written → Option (List Value)
  | [] => some []
  | v :: rest => return (← denote? v) :: (← denoteItems? rest)

/-- What the tables of an array stand for. -/
def denoteTables? : List WrittenTable → Option (List Value)
  | [] => some []
  | t :: rest => return (← denoteTable? t (denoteEntries? t)) :: (← denoteTables? rest)

/-- What the entries of a table stand for. -/
def denoteEntries? : WrittenTable → Option Table
  | [] => some []
  | (key, v) :: rest => return (key, ← denote? v) :: (← denoteEntries? rest)

end

end Written

/-- What the root table stands for. No key makes it a date or a time. -/
def WrittenTable.denote? (root : WrittenTable) : Option Table := Written.denoteEntries? root

end FunctionCache.Toml
