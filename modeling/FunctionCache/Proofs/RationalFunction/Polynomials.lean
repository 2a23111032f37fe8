import Mathlib.Algebra.CharZero.Infinite
import FunctionCache.Proofs.RationalFunction.Commutativity
import FunctionCache.Proofs.RationalFunction.Values

/-!
# Polynomials among the functions

Sums, products and opposites of polynomials are polynomials, and normalising
leaves the denominator 1 alone. A polynomial has a value at every point, and no
two of them have the same values.

* `RationalFunction.IsPolynomial` — a well-formed polynomial over 1;
* `RationalFunction.ofFraction_one` — normalising a polynomial over 1;
* `RationalFunction.IsPolynomial.add`, `mul`, `neg` — arithmetic;
* `RationalFunction.IsPolynomial.eq_iff_evaluate` — values determine the function.
-/

namespace FunctionCache

namespace RationalFunction

variable {n : ℕ} {p : Polynomial} {a b f : RationalFunction} {point : Point}

/-- The function is a polynomial in `n` parameters. -/
def IsPolynomial (n : ℕ) (f : RationalFunction) : Prop :=
  ∃ p : Polynomial, p.WellFormed n ∧ f = fraction p (Polynomial.one n)

theorem isPolynomial_ofPolynomial (hp : p.WellFormed n) : (ofPolynomial n p).IsPolynomial n :=
  ⟨p, hp, rfl⟩

theorem isPolynomial_constant (n : ℕ) (c : ℚ) : (constant n c).IsPolynomial n :=
  isPolynomial_ofPolynomial (Polynomial.wellFormed_constant n c)

/-- Normalising leaves a polynomial as it is. -/
theorem ofFraction_one (hp : p.WellFormed n) :
    ofFraction p (Polynomial.one n) = .ok (fraction p (Polynomial.one n)) := by
  have hconstant : (Polynomial.one n).constantValue? = some 1 :=
    Polynomial.constantValue?_constant n 1
  unfold ofFraction
  rw [if_neg (by simp [Polynomial.isZero_one])]
  split
  · -- the polynomial 0 is put over 1
    rw [ofPolynomial, hp.numVars]
    rfl
  · -- the constant 1 is divided out
    rw [hconstant]
    show Except.ok (overConstant p 1) = _
    rw [overConstant, inv_one, Polynomial.scale_one, ofPolynomial, hp.numVars]

namespace IsPolynomial

theorem inParameters (hf : f.IsPolynomial n) : f.InParameters n := by
  obtain ⟨p, hp, rfl⟩ := hf
  exact ⟨hp.numVars, (Polynomial.wellFormed_one n).numVars⟩

/-! ## Arithmetic -/

theorem neg (ha : a.IsPolynomial n) : a.neg.IsPolynomial n := by
  obtain ⟨p, hp, rfl⟩ := ha
  exact ⟨p.neg, hp.neg, rfl⟩

/-- Sums of polynomials are polynomials: both summands have the denominator 1. -/
theorem add (ha : a.IsPolynomial n) (hb : b.IsPolynomial n) (hf : a.add b = .ok f) :
    f.IsPolynomial n := by
  obtain ⟨p, hp, rfl⟩ := ha
  obtain ⟨q, hq, rfl⟩ := hb
  -- only the numerators are added, and normalising has nothing to do
  rw [add_fraction, if_pos rfl, ofFraction_one (hp.add hq)] at hf
  cases hf
  exact ⟨p.add q, hp.add hq, rfl⟩

/-- Products of polynomials are polynomials. -/
theorem mul (ha : a.IsPolynomial n) (hb : b.IsPolynomial n) (hf : a.mul b = .ok f) :
    f.IsPolynomial n := by
  obtain ⟨p, hp, rfl⟩ := ha
  obtain ⟨q, hq, rfl⟩ := hb
  -- 1 times 1 is computed without an overflow and gives 1
  rw [mul_fraction, (Polynomial.wellFormed_one n).mul_one] at hf
  obtain ⟨r, hr, hf⟩ := Failing.bind_eq_ok.mp hf
  have hwr := hp.of_mul hq (Failing.lift_eq_ok.mp hr)
  have hnormal : ofFraction r (Polynomial.one n) = .ok f := hf
  rw [ofFraction_one hwr] at hnormal
  cases hnormal
  exact ⟨r, hwr, rfl⟩

/-! ## Values -/

theorem evaluate_one (n : ℕ) (coordinates : List ℚ) :
    (Polynomial.one n).evaluate coordinates = 1 := Polynomial.evaluate_constant n 1 coordinates

/-- The value of a polynomial is that of its numerator. -/
theorem evaluate_eq (p : Polynomial) (hsize : point.size = n) :
    (fraction p (Polynomial.one n)).evaluate n point = .ok (p.evaluate point.coordinates) := by
  have hone := evaluate_one n point.coordinates
  rw [evaluate_fraction hsize (by rw [hone]; exact one_ne_zero), hone, div_one]

/-- A polynomial has no poles. -/
theorem exists_evaluate (hf : f.IsPolynomial n) (hsize : point.size = n) :
    ∃ x, f.evaluate n point = .ok x := by
  obtain ⟨p, -, rfl⟩ := hf
  exact ⟨_, evaluate_eq p hsize⟩

/-- **A polynomial is determined by its values** at the points with one coordinate for each
parameter. -/
theorem eq_iff_evaluate (ha : a.IsPolynomial n) (hb : b.IsPolynomial n) :
    a = b ↔ ∀ point : Point, point.size = n → a.evaluate n point = b.evaluate n point := by
  obtain ⟨p, hp, rfl⟩ := ha
  obtain ⟨q, hq, rfl⟩ := hb
  constructor
  · rintro heq point -
    rw [heq]
  · intro hvalues
    -- over the rational numbers a polynomial with the value 0 everywhere is 0
    refine congrArg (fraction · _) (hp.eq_of_toMvPolynomial_eq hq (MvPolynomial.funext fun x => ?_))
    -- the first coordinates of `x` make a point
    have hsize : Point.size ⟨(List.range n).map x⟩ = n := by simp [Point.size]
    have hvalue := hvalues _ hsize
    rw [evaluate_eq p hsize, evaluate_eq q hsize] at hvalue
    rw [hp.eval_toMvPolynomial, hq.eval_toMvPolynomial]
    exact Except.ok.inj hvalue

end IsPolynomial

end RationalFunction

end FunctionCache
