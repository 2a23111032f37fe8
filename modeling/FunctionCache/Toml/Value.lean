/-!
# TOML values

What a TOML document stands for: a table of values under keys.

* `Decimal`, `DateTime` — the numbers and points in time that a document names;
* `Value`, `Table` — a value of any type, and the values under keys;
* `Entries.get?`, `Entries.set` — the value under a key.
-/

namespace FunctionCache.Toml

/-- A floating-point number as written: a mantissa times a power of ten, or a special value. -/
inductive Decimal
  | finite (mantissa exponent : Int)
  | infinity (negative : Bool)
  | nan
deriving DecidableEq, Repr

structure Date where
  year : Nat
  month : Nat
  day : Nat
deriving DecidableEq, Repr

/-- A time of day; `fraction` holds the digits after the point of the seconds. -/
structure Time where
  hour : Nat
  minute : Nat
  second : Nat
  fraction : List Nat
deriving DecidableEq, Repr

/-- A date and a time with an offset from UTC in minutes, or what the document gives of them. -/
inductive DateTime
  | date (d : Date)
  | time (t : Time)
  | dateTime (d : Date) (t : Time)
  | offsetDateTime (d : Date) (t : Time) (minutes : Int)
deriving DecidableEq, Repr

/-- Values under keys, in order of definition. -/
abbrev Entries (α : Type) := List (String × α)

/-- A value of any type. -/
inductive Value
  | string (s : String)
  | integer (n : Int)
  | float (x : Decimal)
  | boolean (b : Bool)
  | datetime (t : DateTime)
  | array (items : List Value)
  | table (entries : List (String × Value))

/-- The entries of a table, in their order. -/
abbrev Table := Entries Value

namespace Value

/-- The name of the type of a value. -/
def typeName : Value → String
  | string _ => "string"
  | integer _ => "integer"
  | float _ => "float"
  | boolean _ => "boolean"
  | datetime _ => "datetime"
  | array _ => "array"
  | table _ => "table"

/-- The string that a value is, if it is one. -/
def string? : Value → Option String
  | string s => some s
  | _ => none

/-- The truth value that a value is, if it is one. -/
def boolean? : Value → Option Bool
  | boolean b => some b
  | _ => none

/-- The table that a value is, if it is one. -/
def table? : Value → Option Table
  | table entries => some entries
  | _ => none

end Value

namespace Entries

variable {α : Type}

/-- The value under a key. -/
def get? (t : Entries α) (key : String) : Option α := t.lookup key

/-- Puts a value under a key, in the place of the value that is there or at the end. -/
def set (t : Entries α) (key : String) (v : α) : Entries α :=
  match t with
  | [] => [(key, v)]
  | (k, w) :: rest => if k = key then (k, v) :: rest else (k, w) :: set rest key v

end Entries

end FunctionCache.Toml
