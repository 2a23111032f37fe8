import FunctionCache.Polynomial.Text

/-!
# Rational functions

A function is a fraction of two polynomials, or one of the values `nan`,
`posInf` and `negInf` that no fraction has. `RationalFunction.ofFraction` brings
a fraction into its normal form:

* zero is 0 over 1, and a constant denominator is divided out of the numerator;
* a numerator that is a constant multiple of the denominator leaves this
  constant over 1;
* monomials that divide both parts are divided out;
* otherwise the leading coefficient of the denominator is 1.

Common factors other than monomials stay, so two fractions with the same values
can differ.
-/

namespace FunctionCache

/-- A fraction of polynomials, or a value that is not a finite number. -/
inductive RationalFunction
  | fraction (numerator denominator : Polynomial)
  | nan
  | posInf
  | negInf
deriving DecidableEq, Hashable

namespace RationalFunction

/-- The numerator of a function with finite values. -/
def numerator? : RationalFunction → Option Polynomial
  | fraction p _ => some p
  | _ => none

/-- The denominator of a function with finite values. -/
def denominator? : RationalFunction → Option Polynomial
  | fraction _ q => some q
  | _ => none

/-- A polynomial over 1, the latter in `n` parameters. -/
def ofPolynomial (n : Nat) (p : Polynomial) : RationalFunction := fraction p (Polynomial.one n)

/-- The constant function `c` of `n` parameters. -/
def constant (n : Nat) (c : Rat) : RationalFunction := ofPolynomial n (Polynomial.constant n c)

/-- The function 0 of `n` parameters. -/
def zero (n : Nat) : RationalFunction := ofPolynomial n (Polynomial.zero n)

/-- The function 1 of `n` parameters. -/
def one (n : Nat) : RationalFunction := ofPolynomial n (Polynomial.one n)

/-! ## Properties -/

def isNaN (f : RationalFunction) : Bool := f == nan

def isPosInf (f : RationalFunction) : Bool := f == posInf

def isNegInf (f : RationalFunction) : Bool := f == negInf

/-- The function 0, by its numerator. -/
def isZero : RationalFunction → Bool
  | fraction p _ => p.isZero
  | _ => false

/-- The function 1, by both parts. -/
def isOne : RationalFunction → Bool
  | fraction p q => p.isOne && q.isOne
  | _ => false

/-- No parameter occurs; values that are not finite count as constants. -/
def isConstant : RationalFunction → Bool
  | fraction p q => p.isConstant && q.isConstant
  | _ => true

/-- The value of a fraction with denominator 1 and a constant numerator. -/
def constantValue? : RationalFunction → Option Rat
  | fraction p q => if q.isOne then p.constantValue? else none
  | _ => none

/-! ## Normal form -/

/-- `p` over the nonzero constant `c`. -/
def overConstant (p : Polynomial) (c : Rat) : RationalFunction :=
  ofPolynomial p.numVars (p.scale c⁻¹)

/-- Both parts without the monomials that divide both. -/
def cancelMonomials (p q : Polynomial) : Except Fault (Polynomial × Polynomial) :=
  let common := p.content.gcd q.content
  if common.isOne then return (p, q)
  else return (← p.divideByMonomial common, ← q.divideByMonomial common)

/-- `p` over `q` in normal form. -/
def ofFraction (p q : Polynomial) : Except Failure RationalFunction :=
  if q.isZero then throw (.error .divisionByZero)
  else if p.isZero then return ofPolynomial p.numVars p
  else
    match q.constantValue?, p.ratioTo? q with
    | some c, _ => return overConstant p c
    | none, some r => return constant p.numVars r
    | none, none => do
      let (p', q') ← (cancelMonomials p q : Except Fault _)
      match q'.constantValue? with
      | some c => return overConstant p' c
      | none =>
        let c := (q'.leadingCoeff?.getD 1)⁻¹
        return fraction (p'.scale c) (q'.scale c)

/-! ## Text -/

/-- A fraction is written `(p)/(q)`, its numerator alone when the denominator is 1. -/
def text (names : List String) : RationalFunction → String
  | fraction p q =>
    if q.isOne then p.text names else "(" ++ p.text names ++ ")/(" ++ q.text names ++ ")"
  | nan => "NaN"
  | posInf => "Inf"
  | negInf => "-Inf"

end RationalFunction

end FunctionCache
