import FunctionCache.Proofs.RationalFunction.Laws

/-!
# Closures

The closure of a function `a` is `1 / (1 - a)` wherever `a` has a value, with a
pole where this value is 1. It is computed through the difference `1 - a`, which
is the function 0 for one function only: a function whose only value is 1 has
been reduced to the constant 1.

* `RationalFunction.isZero_one_sub_iff` — when the difference is 0;
* `RationalFunction.star_of_ne_one` — all closures but that of 1 are quotients;
* `RationalFunction.evaluate_star`, `RationalFunction.star_eq_posInf_iff` — values
  and poles, and the closure that is infinite;
* `Engine.IsClosure` — all of this together;
* `Engine.star_isClosure` — the result.
-/

namespace FunctionCache

namespace RationalFunction

variable {n : ℕ} {p q : Polynomial} {a f exit : RationalFunction} {point : Point} {x : ℚ}

/-! ## Fractions stay fractions -/

/-- Normalising makes a fraction, if it makes anything. -/
theorem isFinite_of_ofFraction (hp : p.WellFormed n) (hq : q.WellFormed n)
    (h : ofFraction p q = .ok f) : f.IsFinite := by
  cases hq0 : q.isZero with
  | true =>
    rw [ofFraction, if_pos hq0] at h
    cases h
  | false =>
    obtain ⟨p', q', hf, -⟩ := ofFraction_eq hp hq hq0
    cases hf.symm.trans h
    exact ⟨p', q', rfl⟩

theorem isFinite_zero (n : ℕ) : (zero n).IsFinite := ⟨_, _, rfl⟩

/-- Reciprocals are fractions, those of infinities included. -/
theorem isFinite_of_reciprocal (ha : a.InNormalForm n) (hne : a ≠ nan)
    (hf : a.reciprocal n = .ok f) : f.IsFinite := by
  cases a with
  | fraction p q => exact isFinite_of_ofFraction ha.denominator ha.numerator hf
  | nan => exact absurd rfl hne
  | posInf | negInf =>
    cases hf
    exact isFinite_zero n

theorem isFinite_of_mul {b : RationalFunction} (ha : a.InNormalForm n) (hb : b.InNormalForm n)
    (hafinite : a.IsFinite) (hbfinite : b.IsFinite) (hf : a.mul b = .ok f) : f.IsFinite := by
  obtain ⟨p₁, q₁, rfl⟩ := hafinite
  obtain ⟨p₂, q₂, rfl⟩ := hbfinite
  rw [mul_fraction] at hf
  obtain ⟨above, habove, hf⟩ := Failing.bind_eq_ok.mp hf
  obtain ⟨below, hbelow, hf⟩ := Failing.bind_eq_ok.mp hf
  exact isFinite_of_ofFraction (ha.numerator.of_mul hb.numerator (Failing.lift_eq_ok.mp habove))
    (ha.denominator.of_mul hb.denominator (Failing.lift_eq_ok.mp hbelow)) hf

/-! ## The difference from 1 -/

theorem evaluate_one (hsize : point.size = n) : (one n).evaluate n point = .ok 1 := by
  rw [one, ofPolynomial, IsPolynomial.evaluate_eq _ hsize, IsPolynomial.evaluate_one]

/-- Where `a` has a value `x`, the exit `1 - a` has the value `1 - x`. -/
theorem evaluate_one_sub (ha : a.InNormalForm n) (hexit : (one n).sub a = .ok exit)
    (hx : a.evaluate n point = .ok x) : exit.evaluate n point = .ok (1 - x) := by
  have hone := evaluate_one (evaluate_eq_ok_iff.mp hx).1
  exact (hasValue_sub (inNormalForm_one n) ha hone hx).of_ok hexit

/-- There is no way out of a loop with probability 1. -/
theorem one_sub_one (n : ℕ) : (one n).sub (one n) = .ok (zero n) :=
  sub_self (inNormalForm_one n) (isFinite_constant n 1)

/-- **The difference from 1 is 0** for the function 1 only. -/
theorem isZero_one_sub_iff (ha : a.InNormalForm n) (hexit : (one n).sub a = .ok exit) :
    exit.isZero = true ↔ a = one n := by
  constructor
  · intro hzero
    have hfinite : a.IsFinite := by
      cases a with
      | fraction p q => exact ⟨p, q, rfl⟩
      | nan | posInf | negInf =>
        cases hexit
        cases hzero
    -- the values of `a` differ from 1 by those of 0
    refine (takesOnly_iff ha hfinite).mp fun point x hx => ?_
    have hvalue := evaluate_one_sub ha hexit hx
    have hnormal := (hereditary_inNormalForm n).of_add (inNormalForm_one n) (inNormalForm_neg ha)
      hexit
    rw [(isZero_iff hnormal).mp hzero, zero_eq_constant] at hvalue
    have hdiff := takesOnly_constant n 0 point _ hvalue
    linarith
  · rintro rfl
    cases hexit.symm.trans (one_sub_one n)
    rfl

/-- A closure is a quotient unless it is that of 1. -/
theorem star_of_ne_one (ha : a.InNormalForm n) (hne : a ≠ one n) :
    ∃ exit, (one n).sub a = .ok exit ∧ exit.InNormalForm n ∧ exit.isZero = false ∧
      a.star n = (one n).div n exit := by
  obtain ⟨exit, hexit, hnormal⟩ := exists_one_sub ha
  have hzero : exit.isZero = false := by
    rwa [← Bool.not_eq_true, isZero_one_sub_iff ha hexit]
  refine ⟨exit, hexit, hnormal, hzero, ?_⟩
  rw [star, hexit, Failing.ok_bind, if_neg (by simp [hzero])]

/-- The closure of 1 is infinite. -/
theorem star_one (n : ℕ) : (one n).star n = .ok posInf := by
  rw [star, one_sub_one]
  rfl

/-- The difference from 1 is an infinity, too, and its reciprocal is 0. -/
theorem star_infinity (n : ℕ) (positive : Bool) : (infinity positive).star n = .ok (zero n) := by
  cases positive <;> exact mul_zero (inNormalForm_one n) (isFinite_constant n 1)

/-! ## What a closure is -/

/-- **The closure is infinite** for the function 1 only. -/
theorem star_eq_posInf_iff (ha : a.InNormalForm n) : a.star n = .ok posInf ↔ a = one n := by
  constructor
  · intro h
    by_contra hne
    obtain ⟨exit, hexit, hnormal, hzero, hstar⟩ := star_of_ne_one ha hne
    obtain ⟨r, hr, hrnormal⟩ := exists_reciprocal hnormal hzero
    rw [hstar, div_eq hzero, hr, Failing.ok_bind] at h
    -- a product of 1 with a fraction is no infinity, and neither is that with NaN
    by_cases hnan : exit = nan
    · subst hnan
      cases hr
      cases h
    · obtain ⟨p, q, hpq⟩ := isFinite_of_mul (inNormalForm_one n) hrnormal (isFinite_constant n 1)
        (isFinite_of_reciprocal hnormal hnan hr) h
      cases hpq
  · rintro rfl
    exact star_one n

/-- **The values and poles of a closure**, where the function itself has a value. -/
theorem evaluate_star (ha : a.InNormalForm n) (hne : a ≠ one n) :
    ∃ f, a.star n = .ok f ∧ ∀ point x, a.evaluate n point = .ok x →
      f.evaluate n point = if x = 1 then .error .divisionByZero else .ok (1 / (1 - x)) := by
  -- the difference to 1 is not the function 0, but it may have the value 0
  obtain ⟨exit, hexit, hnormal, hzero, hstar⟩ := star_of_ne_one ha hne
  obtain ⟨f, hf, -⟩ := exists_one_div hnormal hzero
  refine ⟨f, hstar.trans hf, fun point x hx => ?_⟩
  have hone := evaluate_one (evaluate_eq_ok_iff.mp hx).1
  have hdiff := evaluate_one_sub ha hexit hx
  split_ifs with hx1
  · -- a zero of the difference
    have hdiff0 : 1 - x = 0 := sub_eq_zero.mpr hx1.symm
    exact (pole_div (inNormalForm_one n) hnormal hone hdiff hdiff0 one_ne_zero hzero).of_ok hf
  · have hdiff0 : 1 - x ≠ 0 := sub_ne_zero.mpr (Ne.symm hx1)
    exact (hasValue_div (inNormalForm_one n) hnormal hone hdiff hdiff0).of_ok hf

end RationalFunction

namespace Engine

open RationalFunction

variable {e : Engine} {a : RationalFunction}

/-- The result is the closure of `a`. -/
structure IsClosure (e : Engine) (a : RationalFunction) (result : Except Failure RationalFunction) :
    Prop where
  posInf_iff : result = .ok .posInf ↔ a = e.constant .one
  of_nan : a = .nan → result = .ok .nan
  of_infinity (positive : Bool) : a = infinity positive → result = .ok (e.constant .zero)
  /-- The value is `1 / (1 - x)` where `a` has the value `x`, with a pole where `x` is 1. -/
  of_ne_one : a ≠ e.constant .one → ∃ f, result = .ok f ∧
    ∀ point x, a.evaluate e.numVars point = .ok x →
      f.evaluate e.numVars point = if x = 1 then .error .divisionByZero else .ok (1 / (1 - x))

/-- **The engine computes closures** for every function that it can make. -/
theorem star_isClosure (ha : e.Constructible a) : e.IsClosure a (e.compute (.star a)) := by
  have hnormal := ha.inherits (hereditary_inNormalForm e.numVars)
  exact
    { posInf_iff := star_eq_posInf_iff hnormal
      of_nan := by
        rintro rfl
        rfl
      of_infinity := fun positive h => by
        rw [h]
        exact star_infinity e.numVars positive
      of_ne_one := evaluate_star hnormal }

/-- The closure of `2x / (x + 1)` is `(x + 1) / (1 - x)`, with the pole 1. -/
theorem star_isClosure_of_quotient :
    (ofNames ["x"]).Constructible
        (.fraction (.ofTerms 1 [([1], 2)]) (.ofTerms 1 [([0], 1), ([1], 1)])) ∧
      (ofNames ["x"]).IsClosure
        (.fraction (.ofTerms 1 [([1], 2)]) (.ofTerms 1 [([0], 1), ([1], 1)]))
        (.ok (.fraction (.ofTerms 1 [([0], -1), ([1], -1)])
          (.ofTerms 1 [([0], -1), ([1], 1)]))) := by
  have hp : (Polynomial.ofTerms 1 [([1], 2)]).WellFormed 1 :=
    Polynomial.wellFormed_ofTerms (by decide)
  have hq : (Polynomial.ofTerms 1 [([0], 1), ([1], 1)]).WellFormed 1 :=
    Polynomial.wellFormed_ofTerms (by decide)
  have hf : (ofNames ["x"]).Constructible
      (.fraction (.ofTerms 1 [([1], 2)]) (.ofTerms 1 [([0], 1), ([1], 1)])) :=
    .fraction hp hq (by decide +kernel)
  have hstar : (ofNames ["x"]).compute
      (.star (.fraction (.ofTerms 1 [([1], 2)]) (.ofTerms 1 [([0], 1), ([1], 1)]))) =
      .ok (.fraction (.ofTerms 1 [([0], -1), ([1], -1)]) (.ofTerms 1 [([0], -1), ([1], 1)])) := by
    decide +kernel
  exact ⟨hf, hstar ▸ star_isClosure hf⟩

end Engine

end FunctionCache
