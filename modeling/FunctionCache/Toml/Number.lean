import FunctionCache.Toml.Value

/-!
# Numbers in TOML

Integers are decimal, or hexadecimal, octal or binary behind `0x`, `0o`, `0b`.
Decimal integers and floating-point numbers may have a sign and have no leading
zeros. An underscore may stand between two digits.

* `Numeral.ofText?` — tells a numeral by its shape, which does not yet make its
  characters digits;
* `Numeral.value?` — the integer that a numeral stands for, if it stands for one;
* `Decimal.ofText?` — reads a floating-point number of any size;
* `Decimal.isRepresentable` — whether it stays finite in 64 bits.
-/

namespace FunctionCache.Toml

/-- An integer as written: its base, and its characters behind the mark of the base without the
underscores. -/
structure Numeral where
  base : Nat
  characters : List Char
deriving DecidableEq, Repr

/-! ## Digits -/

namespace Digits

/-- The value of a digit, up to `f` or `F` for 15. -/
def value (c : Char) : Nat :=
  if c.isDigit then c.toNat - '0'.toNat else c.toLower.toNat - 'a'.toNat + 10

/-- The digits of a base up to 16. -/
def isOf (base : Nat) (c : Char) : Bool :=
  (c.isDigit || ('a' ≤ c.toLower && c.toLower ≤ 'f')) && value c < base

/-- The number that digits stand for. -/
def number (base : Nat) (ds : List Char) : Nat :=
  ds.foldl (fun n c => base * n + value c) 0

/-- The sign, negative or not, and what follows it. -/
def sign : List Char → Bool × List Char
  | '-' :: cs => (true, cs)
  | '+' :: cs => (false, cs)
  | cs => (false, cs)

def negateIf (negative : Bool) (n : Int) : Int := if negative then -n else n

/-- Whether there is a zero in front of other characters. -/
def hasLeadingZero : List Char → Bool
  | '0' :: _ :: _ => true
  | _ => false

/-- Whether each underscore stands between two digits; `behind` tells if a digit is in front of the
characters. -/
def groupedFrom (isDigit : Char → Bool) (behind : Bool) : List Char → Bool
  | [] => true
  | '_' :: cs => behind && cs.head?.any isDigit && groupedFrom isDigit false cs
  | c :: cs => groupedFrom isDigit (isDigit c) cs

/-- Whether each underscore stands between two digits. -/
def grouped (isDigit : Char → Bool) (cs : List Char) : Bool := groupedFrom isDigit false cs

/-- The characters without the underscores. -/
def ungrouped (cs : List Char) : List Char := cs.filter (· != '_')

/-- The decimal digits in characters that are digits and underscores; there is at least one. -/
def decimal? (cs : List Char) : Option (List Char) :=
  let ds := ungrouped cs
  if !ds.isEmpty && ds.all Char.isDigit then some ds else none

end Digits

/-! ## Integers -/

namespace Numeral

open Digits

/-- The numeral behind the mark of a base: digits, or nothing. -/
def based? (base : Nat) (cs : List Char) : Option Numeral :=
  if (ungrouped cs).all (isOf base) && grouped (isOf base) cs then some ⟨base, ungrouped cs⟩
  else none

/-- The characters that an integer with underscores cannot have, but a date or a floating-point
number may. -/
def isForeign (c : Char) : Bool := c ∈ [' ', '.', 'e', 'E']

/-- The decimal numeral: digits, perhaps behind a sign. Behind the first underscore, only the
characters next to an underscore count for the shape, and a digit of any base will do there. -/
def decimal? (cs : List Char) : Option Numeral :=
  let unsigned := (sign cs).2
  let rest := unsigned.dropWhile Char.isDigit
  let shaped := rest.isEmpty || (rest.head? == some '_' && !rest.any isForeign)
  if shaped && !unsigned.isEmpty && !hasLeadingZero unsigned && grouped (isOf 16) cs then
    some ⟨10, ungrouped cs⟩
  else none

/-- The numeral that characters have the shape of. -/
def ofText? : List Char → Option Numeral
  | '0' :: 'x' :: cs => based? 16 cs
  | '0' :: 'o' :: cs => based? 8 cs
  | '0' :: 'b' :: cs => based? 2 cs
  | cs => decimal? cs

/-- Whether an integer fits into 64 bits with a sign. -/
def fits (n : Int) : Bool := -9223372036854775808 ≤ n && n ≤ 9223372036854775807

/-- The integer that a numeral stands for: its characters are digits, perhaps behind a sign, and it
fits. -/
def value? (n : Numeral) : Option Int :=
  let (negative, ds) := sign n.characters
  let value := negateIf negative (number n.base ds)
  if !ds.isEmpty && ds.all (isOf n.base) && fits value then some value else none

end Numeral

/-! ## Floating-point numbers -/

namespace Decimal

open Digits

/-- Reads the exponent of a floating-point number, behind its `e`. -/
def exponent? (cs : List Char) : Option Int := do
  let (negative, cs) := sign cs
  return negateIf negative (number 10 (← decimal? cs))

/-- Reads a number with a fraction or an exponent. -/
def finite? (cs : List Char) : Option Decimal := do
  let (negative, unsigned) := sign cs
  let isExponentMark (c : Char) : Bool := c == 'e' || c == 'E'
  let before := unsigned.takeWhile (!isExponentMark ·)
  let after := unsigned.dropWhile (!isExponentMark ·)
  let (whole, point) := (before.takeWhile (· != '.'), before.dropWhile (· != '.'))
  if after.isEmpty && point.isEmpty || hasLeadingZero whole || !grouped Char.isDigit cs then none
  let whole ← decimal? whole
  let fraction ← if point.isEmpty then some [] else decimal? point.tail
  let exponent ← if after.isEmpty then some 0 else exponent? after.tail
  let mantissa := number 10 (whole ++ fraction)
  return .finite (negateIf negative mantissa) (exponent - fraction.length)

/-- Reads a floating-point number. -/
def ofText? (cs : List Char) : Option Decimal :=
  match sign cs with
  | (negative, ['i', 'n', 'f']) => some (.infinity negative)
  | (_, ['n', 'a', 'n']) => some .nan
  | _ => finite? cs

/-- Whether `mantissa * 10 ^ exponent` lies below the middle between the largest finite binary
floating-point number of 64 bits and the next power of two, where rounding gives an infinity. -/
def roundsToFinite (mantissa : Nat) (exponent : Int) : Bool :=
  let bound : Nat := ((1 <<< 54) - 1) <<< 970
  let places : Int := (toString mantissa).length + exponent
  if mantissa = 0 || places < 300 then true
  else if 320 < places then false
  else if 0 ≤ exponent then mantissa * Nat.pow 10 exponent.toNat < bound
  else mantissa < bound * Nat.pow 10 (-exponent).toNat

/-- Whether a floating-point number is special, or finite after rounding. -/
def isRepresentable : Decimal → Bool
  | .finite mantissa exponent => roundsToFinite mantissa.natAbs exponent
  | .infinity _ | .nan => true

end Decimal

end FunctionCache.Toml
