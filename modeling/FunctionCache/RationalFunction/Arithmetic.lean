import FunctionCache.Point
import FunctionCache.RationalFunction.Basic

/-!
# Arithmetic and evaluation of rational functions

Fractions are combined by the school rules and brought back into normal form.
The other values follow the rules of limits: an infinity absorbs every finite
summand, has the sign of a constant factor, and is `nan` where the sign is open;
`nan` absorbs everything. Operations that need the function 0 or 1 take the
number of parameters `n`.
-/

namespace FunctionCache.RationalFunction

/-! ## Arithmetic -/

/-- The infinity with the given sign. -/
def infinity (positive : Bool) : RationalFunction := if positive then posInf else negInf

/-- The function with the opposite sign. -/
def neg : RationalFunction → RationalFunction
  | fraction p q => fraction p.neg q
  | nan => nan
  | posInf => negInf
  | negInf => posInf

/-- The sum; equal denominators are kept. -/
def add : RationalFunction → RationalFunction → Except Failure RationalFunction
  | nan, _ | _, nan => return nan
  | posInf, negInf | negInf, posInf => return nan
  | posInf, _ | _, posInf => return posInf
  | negInf, _ | _, negInf => return negInf
  | fraction p₁ q₁, fraction p₂ q₂ =>
    if q₁ = q₂ then ofFraction (p₁.add p₂) q₁
    else do
      let left ← p₁.mul q₂
      let right ← p₂.mul q₁
      ofFraction (left.add right) (← q₁.mul q₂)

/-- The difference `a + (-b)`. -/
def sub (a b : RationalFunction) : Except Failure RationalFunction := a.add b.neg

/-- An infinity times a function: the sign follows a nonzero constant, any other factor leaves it
open. -/
def scaleInfinity (positive : Bool) (f : RationalFunction) : RationalFunction :=
  match f.constantValue? with
  | some c =>
    if 0 < c then infinity positive
    else if c < 0 then infinity (!positive)
    else nan
  | none => nan

/-- The product. -/
def mul : RationalFunction → RationalFunction → Except Failure RationalFunction
  | nan, _ | _, nan => return nan
  | posInf, posInf | negInf, negInf => return posInf
  | posInf, negInf | negInf, posInf => return negInf
  | posInf, f | f, posInf => return scaleInfinity true f
  | negInf, f | f, negInf => return scaleInfinity false f
  | fraction p₁ q₁, fraction p₂ q₂ => do ofFraction (← p₁.mul p₂) (← q₁.mul q₂)

/-- The reciprocal; that of an infinity is 0. -/
def reciprocal (n : Nat) : RationalFunction → Except Failure RationalFunction
  | fraction p q => ofFraction q p
  | nan => return nan
  | posInf | negInf => return zero n

/-- The quotient. -/
def div (n : Nat) (a b : RationalFunction) : Except Failure RationalFunction :=
  if b.isZero then throw (.error .divisionByZero)
  else do a.mul (← b.reciprocal n)

/-- The closure `1 / (1 - a)`: what a loop taken with probability `a` multiplies the way out by. A
loop with probability 1 is never left. -/
def star (n : Nat) (a : RationalFunction) : Except Failure RationalFunction := do
  let exit ← (one n).sub a
  if exit.isZero then return posInf else (one n).div n exit

/-- Numerator times denominator: has the sign of the function wherever the function is defined. -/
def toConstraint (n : Nat) : RationalFunction → Except Failure RationalFunction
  | fraction p q => return ofPolynomial n (← p.mul q)
  | f => return f

/-! ## Values -/

/-- The values of numerator and denominator at a point with `n` coordinates. -/
def valuesAt (n : Nat) (f : RationalFunction) (point : Point) : Except FunctionError (Rat × Rat) :=
  if point.size ≠ n then throw (.dimensionMismatch n point.size)
  else
    match f with
    | fraction p q =>
      let below := q.evaluate point.coordinates
      if below = 0 then throw .divisionByZero
      else return (p.evaluate point.coordinates, below)
    | f => throw (.notRational (f.text []))

/-- The value at a point. -/
def evaluate (n : Nat) (f : RationalFunction) (point : Point) : Except FunctionError Rat := do
  let (above, below) ← f.valuesAt n point
  return above / below

/-- The value at a point as a quotient that is not reduced. -/
def evaluateUncancelled (n : Nat) (f : RationalFunction) (point : Point) :
    Except FunctionError Ratio := do
  let (above, below) ← f.valuesAt n point
  return Ratio.ofQuotient above below

/-- The value of a constant function; `names` are the parameters in the message of failure. -/
def toRat (names : List String) : RationalFunction → Except FunctionError Rat
  | fraction p q =>
    match (fraction p q).constantValue? with
    | some c => return c
    | none => throw (.notConstant ((fraction p q).text names))
  | f => throw (.notRational (f.text []))

/-- Whether the function is at least 0 at a point, or more than 0 if `strict`. -/
def check (n : Nat) (f : RationalFunction) (point : Point) (strict : Bool) :
    Except FunctionError Bool :=
  match f with
  | posInf => return true
  | negInf => return false
  | f => do
    let value ← f.evaluate n point
    return if strict then decide (0 < value) else decide (0 ≤ value)

end FunctionCache.RationalFunction
