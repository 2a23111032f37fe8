import FunctionCache.Failure

/-!
# Monomials

A monomial is the list of its exponents, one for each parameter. Exponents are
at most `maxExponent`; arithmetic that leaves this range is a fault. Monomials
are ordered lexicographically, and a proper prefix is smaller.

Binary operations pair the exponents up to the end of the shorter list.
-/

namespace FunctionCache

/-- The exponents of a product of powers of the parameters. -/
abbrev Monomial := List Nat

/-- The largest exponent, the largest number of 32 bits. -/
def maxExponent : Nat := 4294967295

namespace Monomial

/-- The monomial 1 in `n` parameters. -/
def one (n : Nat) : Monomial := List.replicate n 0

/-- The monomial of the parameter `i` alone, out of `n`. -/
def var (n i : Nat) : Monomial := (one n).set i 1

/-- The monomial 1 has no positive exponent. -/
def isOne (m : Monomial) : Bool := m.all (· == 0)

/-- The sum of two exponents. -/
def addExponents (d e : Nat) : Except Fault Nat :=
  if d + e ≤ maxExponent then .ok (d + e) else .error .exponentOverflow

/-- The difference of two exponents. -/
def subExponents (d e : Nat) : Except Fault Nat :=
  if e ≤ d then .ok (d - e) else .error .exponentUnderflow

/-- The product of two monomials: exponents add up. -/
def mul : Monomial → Monomial → Except Fault Monomial
  | d :: m, e :: k => return (← addExponents d e) :: (← mul m k)
  | _, _ => return []

/-- The quotient of two monomials: exponents are subtracted. -/
def div : Monomial → Monomial → Except Fault Monomial
  | d :: m, e :: k => return (← subExponents d e) :: (← div m k)
  | _, _ => return []

/-- The largest monomial that divides both. -/
def gcd (m k : Monomial) : Monomial := List.zipWith min m k

/-- The value of `c` times the monomial at a point. -/
def evaluate (point : List Rat) (c : Rat) (m : Monomial) : Rat :=
  (point.zip m).foldl (fun value (x, e) => value * x ^ e) c

/-- The powers with a positive exponent: the name of the parameter, `x` and its index if it has
no name, and the exponent unless it is 1. -/
def factors (names : List String) (m : Monomial) : List String :=
  m.zipIdx.filterMap fun (e, i) =>
    let name := names[i]?.getD ("x" ++ toString i)
    match e with
    | 0 => none
    | 1 => some name
    | e => some (name ++ "^" ++ toString e)

end Monomial

end FunctionCache
