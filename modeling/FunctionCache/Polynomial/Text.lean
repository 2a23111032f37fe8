import FunctionCache.Polynomial.Basic

/-!
# Polynomials as text

Terms are written from the largest monomial to the smallest, joined by ` + `: a
coefficient and the powers of the parameters, joined by `*`. A coefficient 1
before a power and an exponent 1 are not written.
-/

namespace FunctionCache.Polynomial

/-- The text of a term. -/
def termText (names : List String) (t : Term) : String :=
  match t.1.factors names with
  | [] => Rational.text t.2
  | factors =>
    let product := "*".intercalate factors
    if t.2 = 1 then product else Rational.text t.2 ++ "*" ++ product

/-- The text of a polynomial; `0` if it has no term. -/
def text (names : List String) (p : Polynomial) : String :=
  if p.isZero then "0" else " + ".intercalate (p.terms.reverse.map (termText names))

end FunctionCache.Polynomial
