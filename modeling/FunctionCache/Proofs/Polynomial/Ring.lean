import FunctionCache.Proofs.Polynomial.Algebra
import FunctionCache.Proofs.Polynomial.Exponents

/-!
# Units and signs of polynomials

Equal coefficients make equal polynomials, so what holds of coefficients holds
of the representation. A product needs that its terms fit, too: a constant fits
with everything, and a sign makes no difference.

* `Polynomial.add_zero`, `add_neg`, `neg_neg`, `neg_add` — sums;
* `Polynomial.WellFormed.mul_eq_ok` — a product that fits is that of the ring;
* `Polynomial.WellFormed.mul_constant`, `mul_one`, `zero_mul` — constant factors;
* `Polynomial.neg_mul` — signs in products.
-/

namespace FunctionCache

/-- A change of all signs changes the sign of every weight. -/
theorem Terms.weight_map_neg (ts : List Term) (k : Monomial) :
    weight (ts.map fun t => (t.1, -t.2)) k = -weight ts k := by
  induction ts with
  | nil => rfl
  | cons t ts ih =>
    rw [List.map_cons, weight_cons, weight_cons, ih, neg_add]
    split <;> simp

namespace Polynomial

variable {n : ℕ} {p q r : Polynomial}

/-! ## Sums -/

theorem add_zero (p : Polynomial) (n : ℕ) : p.add (zero n) = p := rfl

theorem neg_zero (n : ℕ) : (zero n).neg = zero n := rfl

theorem coeff_neg (p : Polynomial) (k : Monomial) : p.neg.coeff k = -p.coeff k := by
  rw [neg_eq_scale, coeff_scale, mul_neg_one]

theorem add_neg (p : Polynomial) : p.add p.neg = zero p.numVars := by
  refine ext_coeff (numVars_add ..) fun k => ?_
  rw [coeff_add, coeff_neg, add_neg_cancel, coeff_zero]

@[simp] theorem neg_neg (p : Polynomial) : p.neg.neg = p := by
  refine ext_coeff rfl fun k => ?_
  rw [coeff_neg, coeff_neg, Rat.neg_neg]

theorem neg_add (p q : Polynomial) : p.neg.add q.neg = (p.add q).neg := by
  refine ext_coeff ?_ fun k => ?_
  · rw [numVars_add, numVars_neg, numVars_neg, numVars_add]
  · rw [coeff_add, coeff_neg, coeff_neg, coeff_neg, coeff_add, neg_add_rev, Rat.add_comm]

theorem scale_scale (p : Polynomial) (c d : ℚ) : (p.scale c).scale d = p.scale (c * d) := by
  refine ext_coeff ?_ fun k => ?_
  · rw [numVars_scale, numVars_scale, numVars_scale]
  · rw [coeff_scale, coeff_scale, coeff_scale, mul_assoc]

/-! ## Constant factors -/

/-- **A product whose terms fit** is the well-formed polynomial with the value of the product. -/
theorem WellFormed.mul_eq_ok (hp : p.WellFormed n) (hq : q.WellFormed n) (hr : r.WellFormed n)
    (hfits : p.Fits q) (h : p.toMvPolynomial * q.toMvPolynomial = r.toMvPolynomial) :
    p.mul q = .ok r := by
  cases hmul : p.mul q with
  | error e => exact absurd hfits (mul_eq_error_iff.mp hmul).1
  | ok s =>
    refine congrArg Except.ok ((hp.of_mul hq hmul).eq_of_toMvPolynomial_eq hr ?_)
    rw [hp.toMvPolynomial_of_mul hq hmul, h]

/-- **Multiplying with a constant** is scaling, and never overflows. -/
theorem WellFormed.mul_constant (hp : p.WellFormed n) (c : ℚ) :
    p.mul (constant n c) = .ok (p.scale c) := by
  have hc := wellFormed_constant n c
  refine hp.mul_eq_ok hc (hp.scale c) ((hp.fits_iff hc).mpr (hp.not_exceeds_constant c)) ?_
  rw [toMvPolynomial_constant, toMvPolynomial_scale]
  ring

theorem WellFormed.mul_one (hp : p.WellFormed n) : p.mul (one n) = .ok p := by
  rw [one, hp.mul_constant, scale_one]

theorem WellFormed.zero_mul (hp : p.WellFormed n) : (zero n).mul p = .ok (zero n) := by
  rw [mul_comm (p := zero n) hp.numVars.symm, mul_zero, hp.numVars]

/-! ## Signs -/

/-- The opposite of a constant has the opposite value. -/
theorem constantValue?_neg (p : Polynomial) :
    p.neg.constantValue? = p.constantValue?.map (-·) := by
  unfold constantValue?
  rw [isConstant_neg]
  split
  · show some (((p.terms.map _).head?.map Prod.snd).getD 0) = _
    cases p.terms <;> rfl
  · rfl

/-- **A sign** can be taken out of a product, which fails with it or without it. -/
theorem neg_mul (p q : Polynomial) : p.neg.mul q = (p.mul q).map neg := by
  have hfits : p.neg.Fits q ↔ p.Fits q := List.forall_mem_map
  -- the signs move from the factor to the pairs, and from there to the sum
  have hpairs : pairProducts p.neg q = (pairProducts p q).map fun t => (t.1, -t.2) := by
    simp only [pairProducts, neg, List.flatMap_map, List.map_flatMap, List.map_map,
      Function.comp_def, Rat.neg_mul]
  have hsum : ofTerms p.numVars ((pairProducts p q).map fun t => (t.1, -t.2)) =
      (ofTerms p.numVars (pairProducts p q)).neg := by
    refine ext_coeff ?_ fun k => ?_
    · rw [numVars_neg, numVars_ofTerms, numVars_ofTerms]
    · rw [coeff_neg, coeff_ofTerms, coeff_ofTerms, Terms.weight_map_neg]
  rw [mul_eq, mul_eq, numVars_neg, hpairs, hsum]
  simp only [hfits]
  split <;> rfl

end Polynomial

end FunctionCache
