/-!
# Rational numbers as text and as quotients

* `Rational.text` — the lowest terms of a rational number, written `n` or `n/d`;
* `Ratio` — a numerator over a denominator exactly as computed, reduced or not.
-/

namespace FunctionCache

/-- The lowest terms of `q`: `n` when the denominator is 1, else `n/d`. -/
def Rational.text (q : Rat) : String :=
  if q.den = 1 then toString q.num else toString q.num ++ "/" ++ toString q.den

/-- A numerator over a denominator that need not be in lowest terms. -/
structure Ratio where
  numer : Int
  denom : Int
deriving DecidableEq, Repr

namespace Ratio

/-- The lowest terms of `q`. -/
def ofRat (q : Rat) : Ratio := ⟨q.num, q.den⟩

/-- The value of the quotient. -/
def toRat (r : Ratio) : Rat := r.numer / r.denom

/-- `p / q` as the product of cross terms, not reduced, with the sign in the numerator. -/
def ofQuotient (p q : Rat) : Ratio :=
  let numer := p.num * q.den
  let denom := p.den * q.num
  if denom < 0 then ⟨-numer, -denom⟩ else ⟨numer, denom⟩

end Ratio

end FunctionCache
