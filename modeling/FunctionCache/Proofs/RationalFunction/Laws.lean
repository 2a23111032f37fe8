import FunctionCache.Proofs.RationalFunction.Constants
import FunctionCache.Proofs.RationalFunction.Totality
import FunctionCache.Proofs.RationalFunction.Uniqueness

/-!
# Units and inverses

The functions 0 and 1 are units, and functions in normal form cancel: sums,
products and quotients that are trivial in the field of fractions give back the
same representation, since each of them is brought into the normal form that is
known already. Only the quotient of a function by itself can overflow on the
way.

* `RationalFunction.add_zero`, `mul_one`, `div_one` — units, for all functions;
* `RationalFunction.sub_self`, `mul_zero` — results that are 0;
* `RationalFunction.one_div_one_div`, `div_self` — inverses.
-/

namespace FunctionCache

/-- A fraction and its normal form have the same cross products. -/
theorem Reduces.cross_eq {n : ℕ} {p q p' q' : Polynomial} (h : Reduces n p q p' q') :
    p.toMvPolynomial * q'.toMvPolynomial = q.toMvPolynomial * p'.toMvPolynomial := by
  obtain ⟨k, hp, hq⟩ := h.factor
  rw [hp, hq]
  ring

namespace RationalFunction

variable {n : ℕ} {p q : Polynomial} {a b : RationalFunction}

/-! ## Fractions -/

/-- The numerator 0 makes the function 0. -/
theorem ofFraction_zero (n : ℕ) (hq0 : q.isZero = false) :
    ofFraction (.zero n) q = .ok (zero n) := by
  rw [ofFraction, if_neg (by simp [hq0])]
  rfl

/-- Equal parts make the function 1. -/
theorem ofFraction_self (hp : p.WellFormed n) (hp0 : p.isZero = false) :
    ofFraction p p = .ok (one n) := by
  have hone := Polynomial.wellFormed_one n
  have hidentified : Identified n (Monomial.OfLength n) p p (.one n) (.one n) :=
    .multiple one_ne_zero p.scale_one.symm (Polynomial.scale_one _).symm
  rw [ofFraction_eq_of_identified hp hp hone hone hp0 (Polynomial.isZero_one n) hidentified,
    ofFraction_one hone]
  rfl

/-! ## Units -/

/-- Functions in normal form are functions of the parameters. -/
theorem InNormalForm.inParameters (ha : a.InNormalForm n) : a.InParameters n := by
  cases a with
  | fraction p q => exact ⟨ha.numerator.numVars, ha.denominator.numVars⟩
  | nan | posInf | negInf => trivial

/-- **0 is a unit of sums**, for infinities and NaN as well. -/
theorem add_zero (ha : a.InNormalForm n) : a.add (zero n) = .ok a := by
  cases a with
  | fraction p q =>
    rw [zero, ofPolynomial, add_fraction]
    split_ifs with hq
    · rw [Polynomial.add_zero, ofFraction_of_normal ha]
    · -- the cross products are those with 1 and 0
      rw [ha.numerator.mul_one, ha.denominator.zero_mul, ha.denominator.mul_one]
      exact ofFraction_of_normal ha
  | nan | posInf | negInf => rfl

theorem scaleInfinity_one (positive : Bool) (n : ℕ) :
    scaleInfinity positive (one n) = infinity positive := by
  have hvalue : (one n).constantValue? = some 1 :=
    (constantValue?_eq_some_iff (inNormalForm_one n)).mpr rfl
  rw [scaleInfinity, hvalue]
  exact if_pos one_pos

/-- **1 is a unit of products**. -/
theorem mul_one (ha : a.InNormalForm n) : a.mul (one n) = .ok a := by
  cases a with
  | fraction p q =>
    rw [one, ofPolynomial, mul_fraction, ha.numerator.mul_one, ha.denominator.mul_one]
    exact ofFraction_of_normal ha
  | nan => rfl
  | posInf => exact congrArg Except.ok (scaleInfinity_one true n)
  | negInf => exact congrArg Except.ok (scaleInfinity_one false n)

theorem one_mul (ha : a.InNormalForm n) : (one n).mul a = .ok a := by
  rw [mul_comm (inNormalForm_one n).inParameters ha.inParameters, mul_one ha]

/-- **Division by 1** multiplies with its reciprocal, which is 1. -/
theorem div_one (ha : a.InNormalForm n) : a.div n (one n) = .ok a := by
  have hreciprocal : (one n).reciprocal n = .ok (one n) :=
    ofFraction_one (Polynomial.wellFormed_one n)
  have hne : (one n).isZero = false := Polynomial.isZero_one n
  rw [div_eq hne, hreciprocal, Failing.ok_bind, mul_one ha]

/-! ## Results that are 0 -/

/-- A fraction minus itself is 0; the denominator is kept until then. -/
theorem sub_self (ha : a.InNormalForm n) (hfinite : a.IsFinite) : a.sub a = .ok (zero n) := by
  obtain ⟨p, q, rfl⟩ := hfinite
  rw [sub, neg, add_fraction, if_pos rfl, Polynomial.add_neg, ha.numerator.numVars,
    ofFraction_zero n ha.ne_zero]

/-- A fraction times 0 is 0. -/
theorem mul_zero (ha : a.InNormalForm n) (hfinite : a.IsFinite) :
    a.mul (zero n) = .ok (zero n) := by
  obtain ⟨p, q, rfl⟩ := hfinite
  rw [zero, ofPolynomial, mul_fraction, Polynomial.mul_zero, ha.denominator.mul_one,
    ha.numerator.numVars]
  exact ofFraction_zero n ha.ne_zero

/-! ## Inverses -/

/-- **The reciprocal of the reciprocal** is the function itself. -/
theorem reciprocal_reciprocal (ha : a.InNormalForm n) (hfinite : a.IsFinite)
    (hne : a.isZero = false) : ∃ r, a.reciprocal n = .ok r ∧ r.InNormalForm n ∧
      r.isZero = false ∧ r.reciprocal n = .ok a := by
  obtain ⟨p, q, rfl⟩ := hfinite
  obtain ⟨q', p', hr, hreduces, hidentified⟩ :=
    ofFraction_identified ha.denominator ha.numerator hne
  have hr' := hreduces.normal
  obtain ⟨k, hk, -⟩ := hreduces.factor
  have hq' : q'.isZero = false := isZero_of_factor ha.denominator hr'.numerator hk ha.ne_zero
  refine ⟨fraction q' p', hr, hr', hq', ?_⟩
  -- the parts of the reciprocal in the other order are identified with the function
  have hflip := hidentified.flip (ha.denominator.isZero_eq_false_iff.mp ha.ne_zero)
  show ofFraction p' q' = _
  rw [← ofFraction_eq_of_identified ha.numerator ha.denominator hr'.denominator hr'.numerator
    ha.ne_zero hq' hflip, ofFraction_of_normal ha]

theorem one_div (hne : a.isZero = false) (ha : a.InNormalForm n) :
    (one n).div n a = a.reciprocal n := by
  obtain ⟨r, hr, hnormal⟩ := exists_reciprocal ha hne
  rw [div_eq hne, hr, Failing.ok_bind, one_mul hnormal]

/-- **Dividing 1 twice** gives the function back, and nothing overflows on the way. -/
theorem one_div_one_div (ha : a.InNormalForm n) (hfinite : a.IsFinite) (hne : a.isZero = false) :
    ∃ r, (one n).div n a = .ok r ∧ (one n).div n r = .ok a := by
  obtain ⟨r, hr, hnormal, hne', hrr⟩ := reciprocal_reciprocal ha hfinite hne
  exact ⟨r, (one_div hne ha).trans hr, (one_div hne' hnormal).trans hrr⟩

/-- **A quotient with equal parts** is 1, but the products that it is made of can overflow. -/
theorem div_self (ha : a.InNormalForm n) (hfinite : a.IsFinite) (hne : a.isZero = false) :
    a.div n a = .ok (one n) ∨ a.div n a = .error (.fault .exponentOverflow) := by
  obtain ⟨r, hr, hoverflows⟩ := overflowsIff_div ha ha hne
  cases hdiv : a.div n a with
  | error x => exact Or.inr (congrArg Except.error (hoverflows.eq_overflow hdiv))
  | ok f =>
    left
    obtain ⟨p, q, rfl⟩ := hfinite
    obtain ⟨q', p', hf, hreduces⟩ := ofFraction_eq ha.denominator ha.numerator hne
    cases hf.symm.trans hr
    have hr' := hreduces.normal
    rw [div_eq hne, hr, Failing.ok_bind, mul_fraction] at hdiv
    obtain ⟨above, habove, hdiv⟩ := Failing.bind_eq_ok.mp hdiv
    obtain ⟨below, hbelow, hdiv⟩ := Failing.bind_eq_ok.mp hdiv
    have habove := Failing.lift_eq_ok.mp habove
    have hbelow := Failing.lift_eq_ok.mp hbelow
    have hwell := ha.denominator.of_mul hr'.denominator hbelow
    -- numerator and denominator are the cross products with the reciprocal
    have hsame : above = below := by
      refine (ha.numerator.of_mul hr'.numerator habove).eq_of_toMvPolynomial_eq hwell ?_
      rw [ha.numerator.toMvPolynomial_of_mul hr'.numerator habove,
        ha.denominator.toMvPolynomial_of_mul hr'.denominator hbelow, hreduces.cross_eq]
    have hbelow0 := ha.denominator.isZero_of_mul hr'.denominator hbelow ha.ne_zero hr'.ne_zero
    rw [hsame, ofFraction_self hwell hbelow0] at hdiv
    exact hdiv.symm

end RationalFunction

end FunctionCache
