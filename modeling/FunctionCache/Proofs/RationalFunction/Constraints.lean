import Mathlib.Algebra.Order.Field.Basic
import FunctionCache.Proofs.RationalFunction.Signs

/-!
# Constraints

The constraint of a function is a polynomial, the numerator times the
denominator, so that comparisons with 0 need no division. Where the function has
a value, this product has the same sign. Where the denominator is 0 the function
has no value and cannot be compared, while the product is 0 and counts as "at
least 0".

* `RationalFunction.compare_mul_iff` — a product and a quotient have one sign;
* `RationalFunction.check_toConstraint` — comparing the constraint;
* `Engine.ConstraintOf` — where a constraint has the sign of the function;
* `Engine.constraint_keeps_signs` — the result.
-/

namespace FunctionCache

namespace RationalFunction

variable {n : ℕ} {p q r : Polynomial} {a f : RationalFunction} {x y : ℚ}

/-- **A product and a quotient have one sign**, and of a quotient by 0 nothing is asked. -/
theorem compare_mul_iff (strict : Bool) :
    (if strict then decide (0 < x * y) else decide (0 ≤ x * y)) =
      if strict then decide (0 < x / y) else decide (0 ≤ x / y) := by
  simp only [mul_pos_iff, div_pos_iff, mul_nonneg_iff, div_nonneg_iff]

/-- A function that is no fraction fails in another way than by a pole. -/
theorem evaluate_ne_of_not_isFinite (n : ℕ) (point : Point) (h : ¬a.IsFinite) :
    a.evaluate n point ≠ .error .divisionByZero := by
  rw [Ne, evaluate_eq_error_iff]
  intro hfails
  cases hfails with
  | divisionByZero hsize hdenominator hq =>
    cases a with
    | fraction p q => exact h ⟨p, q, rfl⟩
    | nan | posInf | negInf => cases hdenominator

theorem evaluate_of_size_ne {point : Point} (a : RationalFunction) (h : point.size ≠ n) :
    a.evaluate n point = .error (.dimensionMismatch n point.size) :=
  evaluate_of_failsAt (.dimensionMismatch h)

/-- The poles of a fraction are the zeros of its denominator. -/
theorem evaluate_eq_divisionByZero_iff {point : Point} :
    (fraction p q).evaluate n point = .error .divisionByZero ↔
      point.size = n ∧ q.evaluate point.coordinates = 0 := by
  rw [evaluate_eq_error_iff]
  constructor
  · intro hfails
    cases hfails with
    | divisionByZero hsize hdenominator hq =>
      cases hdenominator
      exact ⟨hsize, hq⟩
  · rintro ⟨hsize, hq⟩
    exact .divisionByZero hsize rfl hq

/-- **Comparing a constraint with 0** is comparing the function with 0, but for the poles, at which
the constraint is 0. -/
theorem check_toConstraint (ha : a.InNormalForm n) (hf : a.toConstraint n = .ok f) (point : Point)
    (strict : Bool) : f.check n point strict =
      if a.evaluate n point = .error .divisionByZero then .ok (!strict)
      else a.check n point strict := by
  cases a with
  | nan | posInf | negInf =>
    cases hf
    rw [if_neg (evaluate_ne_of_not_isFinite n point (by rintro ⟨p, q, h⟩; cases h))]
  | fraction p q =>
    obtain ⟨r, hr, hf⟩ := Failing.bind_eq_ok.mp hf
    cases hf
    -- the constraint has the product of the two values everywhere
    have hvalue := ha.numerator.evaluate_of_mul ha.denominator (Failing.lift_eq_ok.mp hr)
      point.coordinates
    rw [ofPolynomial, check_fraction, check_fraction]
    by_cases hsize : point.size = n
    · rw [IsPolynomial.evaluate_eq r hsize, hvalue]
      by_cases hq : q.evaluate point.coordinates = 0
      · -- at a pole the product is 0
        rw [if_pos (evaluate_eq_divisionByZero_iff.mpr ⟨hsize, hq⟩), hq, Rat.mul_zero]
        cases strict <;> rfl
      · rw [if_neg (fun h => hq (evaluate_eq_divisionByZero_iff.mp h).2),
          evaluate_fraction hsize hq]
        exact congrArg Except.ok (compare_mul_iff strict)
    · rw [if_neg (fun h => hsize (evaluate_eq_divisionByZero_iff.mp h).1),
        evaluate_of_size_ne _ hsize, evaluate_of_size_ne _ hsize]

/-- At a pole a function cannot be compared with 0. -/
theorem check_of_pole {point : Point} (strict : Bool)
    (h : a.evaluate n point = .error .divisionByZero) :
    a.check n point strict = .error .divisionByZero := by
  by_cases hfinite : a.IsFinite
  · obtain ⟨p, q, rfl⟩ := hfinite
    rw [check_fraction, h]
    rfl
  · exact absurd h (evaluate_ne_of_not_isFinite n point hfinite)

end RationalFunction

namespace Engine

open RationalFunction

variable {e : Engine} {a f : RationalFunction}

/-- The function `f` has the sign of `a` wherever `a` has a value, and is 0 where `a` has a pole. -/
structure ConstraintOf (e : Engine) (a f : RationalFunction) : Prop where
  /-- Comparisons with 0 have the same answer or fail alike. -/
  check_of_value {point : Point} (strict : Bool) :
    e.answer a (.value point) ≠ .error .divisionByZero →
      e.answer f (.check point strict) = e.answer a (.check point strict)
  check_of_pole {point : Point} (strict : Bool) :
    e.answer a (.value point) = .error .divisionByZero →
      e.answer a (.check point strict) = .error .divisionByZero ∧
        e.answer f (.check point strict) = .ok (!strict)
  /-- So `f` is more than 0 exactly where `a` is. -/
  check_strict (point : Point) :
    e.answer f (.check point true) = .ok true ↔ e.answer a (.check point true) = .ok true
  /-- But it is at least 0 at the poles of `a`, too. -/
  check_nonstrict (point : Point) :
    e.answer f (.check point false) = .ok true ↔ e.answer a (.check point false) = .ok true ∨
      e.answer a (.value point) = .error .divisionByZero

/-- **A constraint has the sign of the function** at every point but the poles. There the function
cannot be compared with 0, but the constraint counts as at least 0. -/
theorem constraint_keeps_signs (ha : e.Constructible a) (hf : e.compute (.constraint a) = .ok f) :
    e.ConstraintOf a f := by
  have hcheck := check_toConstraint (constructible_inNormalForm ha) hf
  have hvalue {point : Point} (strict : Bool)
      (h : a.evaluate e.numVars point ≠ .error .divisionByZero) :
      f.check e.numVars point strict = a.check e.numVars point strict :=
    (hcheck point strict).trans (if_neg h)
  have hpole {point : Point} (strict : Bool)
      (h : a.evaluate e.numVars point = .error .divisionByZero) :
      a.check e.numVars point strict = .error .divisionByZero ∧
        f.check e.numVars point strict = .ok (!strict) :=
    ⟨check_of_pole strict h, (hcheck point strict).trans (if_pos h)⟩
  -- strictly above 0 both agree, poles included; at least 0 they differ at the poles
  refine ⟨hvalue, hpole, fun point => ?_, fun point => ?_⟩
  · show f.check _ _ _ = _ ↔ a.check _ _ _ = _
    by_cases h : a.evaluate e.numVars point = .error .divisionByZero
    · rw [(hpole true h).1, (hpole true h).2]
      exact iff_of_false (fun h => by cases h) fun h => by cases h
    · rw [hvalue true h]
  · show f.check _ _ _ = _ ↔ a.check _ _ _ = _ ∨ a.evaluate _ _ = _
    by_cases h : a.evaluate e.numVars point = .error .divisionByZero
    · exact iff_of_true (hpole false h).2 (Or.inr h)
    · rw [hvalue false h, or_iff_left h]

/-- The constraint of `1 / x` is `x`. -/
theorem constraint_keeps_signs_of_reciprocal :
    (ofNames ["x"]).compute (.constraint (.fraction (.one 1) (.ofTerms 1 [([1], 1)]))) =
        .ok (.ofPolynomial 1 (.ofTerms 1 [([1], 1)])) ∧
      (ofNames ["x"]).ConstraintOf (.fraction (.one 1) (.ofTerms 1 [([1], 1)]))
        (.ofPolynomial 1 (.ofTerms 1 [([1], 1)])) := by
  have hx : (Polynomial.ofTerms 1 [([1], 1)]).WellFormed 1 :=
    Polynomial.wellFormed_ofTerms (by decide)
  have hf : (ofNames ["x"]).compute (.constraint (.fraction (.one 1) (.ofTerms 1 [([1], 1)]))) =
      .ok (.ofPolynomial 1 (.ofTerms 1 [([1], 1)])) := by
    decide +kernel
  refine ⟨hf, constraint_keeps_signs (e := ofNames ["x"]) ?_ hf⟩
  exact .fraction (Polynomial.wellFormed_one 1) hx (by decide +kernel)

/-- At 0 the constraint of `1 / x` is at least 0, while `1 / x` has no value. -/
theorem constraint_holds_at_pole :
    (ofNames ["x"]).compute (.constraint (.fraction (.one 1) (.ofTerms 1 [([1], 1)]))) =
        .ok (.ofPolynomial 1 (.ofTerms 1 [([1], 1)])) ∧
      (ofNames ["x"]).answer (.ofPolynomial 1 (.ofTerms 1 [([1], 1)])) (.check ⟨[0]⟩ false) =
        .ok true ∧
      (ofNames ["x"]).answer (.fraction (.one 1) (.ofTerms 1 [([1], 1)])) (.check ⟨[0]⟩ false) =
        .error .divisionByZero := by
  refine ⟨?_, ?_, ?_⟩ <;> decide +kernel

end Engine

end FunctionCache
