import FunctionCache.Polynomial.Terms

/-!
# Polynomials

Sparse polynomials in several parameters with rational coefficients: the terms
with a nonzero coefficient, in ascending order of their monomials. The order
and the absence of zero coefficients make the representation unique, so
structural equality is equality of coefficients.

* `Polynomial.ofTerms`, `ofEntries` — folds of `Polynomial.alter`, the one way
  to change a coefficient: the sum of terms, and the last of those that have one
  monomial;
* `Polynomial.add`, `mul`, `divideByMonomial` — built from these;
* `Polynomial.content` — the largest monomial that divides every term;
* `Polynomial.ratioTo?` — the constant ratio of two polynomials that have one.

The monomials of a polynomial usually have one exponent for each parameter, but
no operation asks for it: operations on two polynomials take the number of
parameters of the left one and keep monomials of both lengths apart.
-/

namespace FunctionCache

/-- A polynomial in `numVars` parameters: its nonzero terms in ascending order. -/
structure Polynomial where
  numVars : Nat
  terms : List Term
  sorted : Terms.Sorted terms
  nonzero : Terms.Nonzero terms
deriving DecidableEq

namespace Polynomial

instance : Hashable Polynomial where
  hash p := mixHash (hash p.numVars) (hash p.terms)

/-- The coefficient of a monomial. -/
def coeff (p : Polynomial) (m : Monomial) : Rat := Terms.coeff p.terms m

/-- Changes the coefficient of `m` by `f`. -/
def alter (p : Polynomial) (m : Monomial) (f : Rat → Rat) : Polynomial where
  numVars := p.numVars
  terms := Terms.alter m f p.terms
  sorted := Terms.sorted_alter p.sorted
  nonzero := Terms.nonzero_alter p.nonzero

/-- Adds `c` times the monomial `m`. -/
def addTerm (p : Polynomial) (m : Monomial) (c : Rat) : Polynomial := p.alter m (· + c)

@[simp] theorem numVars_alter (p : Polynomial) (m : Monomial) (f : Rat → Rat) :
    (p.alter m f).numVars = p.numVars := rfl

/-- A change concerns one coefficient only. -/
theorem coeff_alter (p : Polynomial) (m : Monomial) (f : Rat → Rat) (k : Monomial) :
    (p.alter m f).coeff k = if m = k then f (p.coeff m) else p.coeff k :=
  Terms.coeff_alter p.sorted m f k

@[simp] theorem numVars_addTerm (p : Polynomial) (m : Monomial) (c : Rat) :
    (p.addTerm m c).numVars = p.numVars := rfl

theorem coeff_addTerm (p : Polynomial) (m : Monomial) (c : Rat) (k : Monomial) :
    (p.addTerm m c).coeff k = if m = k then p.coeff m + c else p.coeff k :=
  coeff_alter p m (· + c) k

/-- The polynomial 0. -/
def zero (n : Nat) : Polynomial := ⟨n, [], List.Pairwise.nil, by simp [Terms.Nonzero]⟩

@[simp] theorem coeff_zero (n : Nat) (k : Monomial) : (zero n).coeff k = 0 := rfl

/-- The constant polynomial `c`. -/
def constant (n : Nat) (c : Rat) : Polynomial := (zero n).addTerm (Monomial.one n) c

/-- The polynomial 1. -/
def one (n : Nat) : Polynomial := constant n 1

/-- The parameter with index `i`. -/
def var (n i : Nat) : Except Fault Polynomial :=
  if i < n then .ok ((zero n).addTerm (Monomial.var n i) 1) else .error (.indexOutOfBounds n i)

/-- The sum of the listed terms; monomials may repeat and coefficients may be 0. -/
def ofTerms (n : Nat) (ts : List Term) : Polynomial :=
  ts.foldl (fun p t => p.addTerm t.1 t.2) (zero n)

/-- The number of terms. -/
def numTerms (p : Polynomial) : Nat := p.terms.length

/-- The polynomial is 0: it has no terms. -/
def isZero (p : Polynomial) : Bool := p.terms.isEmpty

/-- No parameter occurs. -/
def isConstant (p : Polynomial) : Bool := p.terms.all fun t => t.1.isOne

/-- The value of a constant polynomial. -/
def constantValue? (p : Polynomial) : Option Rat :=
  if p.isConstant then some ((p.terms.head?.map Prod.snd).getD 0) else none

/-- The polynomial is the constant 1. -/
def isOne (p : Polynomial) : Bool := p.constantValue? == some 1

/-- The coefficient of the largest monomial. -/
def leadingCoeff? (p : Polynomial) : Option Rat := p.terms.getLast?.map Prod.snd

/-! ## Arithmetic -/

/-- The sum: the terms of `q` are added to `p` one after the other. -/
def add (p q : Polynomial) : Polynomial :=
  q.terms.foldl (fun sum t => sum.addTerm t.1 t.2) p

/-- The opposite: every coefficient changes its sign. -/
def neg (p : Polynomial) : Polynomial where
  numVars := p.numVars
  terms := p.terms.map fun t => (t.1, -t.2)
  sorted := Terms.sorted_map p.sorted
  nonzero := Terms.nonzero_map (fun c hc h => hc (by rw [← Rat.neg_neg c, h]; rfl)) p.nonzero

/-- The difference, by way of the opposite. -/
def sub (p q : Polynomial) : Polynomial := p.add q.neg

/-- The product with a constant. -/
def scale (p : Polynomial) (c : Rat) : Polynomial :=
  if h : c = 0 then zero p.numVars
  else
    { numVars := p.numVars
      terms := p.terms.map fun t => (t.1, t.2 * c)
      sorted := Terms.sorted_map (g := (· * c)) p.sorted
      nonzero :=
        Terms.nonzero_map (fun _ hd hdc => (Rat.mul_eq_zero.mp hdc).elim hd h) p.nonzero }

/-- The products of every term of `p` with every term of `q`. -/
def products (p q : Polynomial) : Except Fault (List Term) :=
  (p.terms.flatMap fun s => q.terms.map fun t => (s, t)).mapM fun (s, t) =>
    return (← s.1.mul t.1, s.2 * t.2)

/-- The product: the sum of the products of terms. -/
def mul (p q : Polynomial) : Except Fault Polynomial :=
  return ofTerms p.numVars (← products p q)

/-! ## Monomial divisors and proportions -/

/-- The largest monomial that divides every term; 1 when there is no term. -/
def content (p : Polynomial) : Monomial :=
  match p.terms with
  | [] => Monomial.one p.numVars
  | t :: ts => ts.foldl (fun m s => m.gcd s.1) t.1

/-- The terms with their monomials divided by `m`. -/
def quotients (p : Polynomial) (m : Monomial) : Except Fault (List Term) :=
  p.terms.mapM fun t => return (← t.1.div m, t.2)

/-- The polynomial with these coefficients; of two for the same monomial the later one holds. -/
def ofEntries (n : Nat) (ts : List Term) : Polynomial :=
  ts.foldl (fun p t => p.alter t.1 fun _ => t.2) (zero n)

/-- Divides every term by `m`. Where two terms get the same monomial, the one that had the larger
monomial before stays. -/
def divideByMonomial (p : Polynomial) (m : Monomial) : Except Fault Polynomial :=
  return ofEntries p.numVars (← p.quotients m)

/-- The number `r` with `p = r * q`, if `p` is not 0 and there is one. -/
def ratioTo? (p q : Polynomial) : Option Rat :=
  match p.terms, q.terms with
  | s :: _, t :: _ =>
    let r := s.2 / t.2
    if Terms.proportional r p.terms q.terms then some r else none
  | _, _ => none

/-! ## Values -/

/-- The value at a point; exponents are paired with coordinates up to the end of the shorter. -/
def evaluate (p : Polynomial) (point : List Rat) : Rat :=
  p.terms.foldl (fun value t => value + t.1.evaluate point t.2) 0

end Polynomial

end FunctionCache
