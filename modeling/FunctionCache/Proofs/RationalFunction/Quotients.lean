import Mathlib.Data.Rat.Lemmas
import FunctionCache.Proofs.RationalFunction.Values

/-!
# Values that are not reduced

A value can be asked for as the product of cross terms instead of a number in
lowest terms. The computation fails in the same cases and with the same errors,
and what it makes is the value in lowest terms with both parts multiplied by
their greatest common divisor.

* `Ratio.Expands` — a quotient and its lowest terms;
* `Ratio.expands_toRat` — every quotient with a positive denominator expands its
  value;
* `Engine.EvaluatesAlike` — both ways to evaluate;
* `Engine.quotient_expands_value` — the result.
-/

namespace FunctionCache

/-! ## Quotients and their lowest terms -/

namespace Ratio

variable {r : Ratio} {p q v : ℚ}

/-- The quotient `r` is `v` in lowest terms, with both parts multiplied by a positive integer: the
greatest common divisor that they have in `r`. -/
structure Expands (r : Ratio) (v : ℚ) : Prop where
  denom_pos : 0 < r.denom
  toRat_eq : r.toRat = v
  gcd_pos : 0 < r.numer.gcd r.denom
  numer_eq : r.numer = r.numer.gcd r.denom * v.num
  denom_eq : r.denom = r.numer.gcd r.denom * v.den

/-- Every quotient with a positive denominator expands its own value. -/
theorem expands_toRat (h : 0 < r.denom) : r.Expands r.toRat := by
  have hdivInt : r.toRat = Rat.divInt r.numer r.denom := (Rat.divInt_eq_div _ _).symm
  obtain ⟨c, hnumer, hdenom⟩ := Rat.num_den_mk h.ne' hdivInt
  have hc : 0 < c := by
    rw [hdenom] at h
    exact pos_of_mul_pos_left h (Int.natCast_nonneg _)
  -- lowest terms have no divisor in common, so the factor is all that the parts have
  have hgcd : (r.numer.gcd r.denom : ℤ) = c := by
    have hreduced : Int.gcd r.toRat.num r.toRat.den = 1 := r.toRat.reduced
    rw [hnumer, hdenom, Int.gcd_mul_left, hreduced, Nat.mul_one, Int.natAbs_of_nonneg hc.le]
  refine ⟨h, rfl, ?_, ?_, ?_⟩
  · rw [← Int.natCast_pos, hgcd]
    exact hc
  · rw [hgcd, ← hnumer]
  · rw [hgcd, ← hdenom]

/-- The sign is moved to the numerator, so that the denominator is positive. -/
theorem denom_ofQuotient_pos (hq : q ≠ 0) : 0 < (ofQuotient p q).denom := by
  have hne : p.den * q.num ≠ 0 :=
    mul_ne_zero (Int.natCast_ne_zero.mpr p.den_nz) (Rat.num_ne_zero.mpr hq)
  unfold ofQuotient
  dsimp only
  split_ifs with hneg
  · -- both parts change their sign
    exact neg_pos.mpr hneg
  · exact lt_of_le_of_ne (not_lt.mp hneg) hne.symm

/-- Moving the sign to the numerator keeps the value. -/
theorem toRat_ofQuotient (p q : ℚ) : (ofQuotient p q).toRat = p / q := by
  have hcross : ((p.num * q.den : ℤ) : ℚ) / ((p.den * q.num : ℤ) : ℚ) = p / q := by
    push_cast
    rw [← div_div_div_eq, Rat.num_div_den, Rat.num_div_den]
  unfold ofQuotient toRat
  dsimp only
  split_ifs
  · -- a sign on both parts makes no difference
    rw [Int.cast_neg, Int.cast_neg, neg_div_neg_eq, hcross]
  · exact hcross

/-- The cross terms of two numbers expand their quotient. -/
theorem expands_ofQuotient (hq : q ≠ 0) : (ofQuotient p q).Expands (p / q) :=
  toRat_ofQuotient p q ▸ expands_toRat (denom_ofQuotient_pos hq)

/-- The value is -2/3. -/
example : ofQuotient (3/2) (-9/4) = ⟨-12, 18⟩ := by decide +kernel

end Ratio

/-! ## Both ways to evaluate -/

namespace Engine

open RationalFunction

/-- How the evaluations of `a` at a point end. -/
structure EvaluatesAlike (e : Engine) (a : RationalFunction) (point : Point) : Prop where
  /-- Both fail with one error, or the one makes the value and the other an expansion of it. -/
  alike : (∃ error, e.answer a (.quotient point) = .error error ∧
      e.answer a (.value point) = .error error) ∨
    ∃ r v, e.answer a (.quotient point) = .ok r ∧ e.answer a (.value point) = .ok v ∧ r.Expands v
  fails_iff {error : FunctionError} :
    e.answer a (.value point) = .error error ↔ a.FailsAt e.numVars point error

/-- **A quotient that is not reduced expands the value** of the function, at points of any size. -/
theorem quotient_expands_value (e : Engine) (a : RationalFunction) (point : Point) :
    e.EvaluatesAlike a point := by
  refine ⟨?_, evaluate_eq_error_iff⟩
  rcases failsAt_or_fraction e.numVars a point with ⟨error, h⟩ | ⟨hsize, p, q, rfl, hq⟩
  · -- no values of the two parts: both ways end with the error
    refine Or.inl ⟨error, ?_, evaluate_of_failsAt h⟩
    show a.evaluateUncancelled _ _ = _
    rw [evaluateUncancelled, valuesAt_of_failsAt h]
    rfl
  · -- both ways divide the same two values, the second of which is not 0
    refine Or.inr ⟨_, _, ?_, evaluate_fraction hsize hq, Ratio.expands_ofQuotient hq⟩
    show (fraction p q).evaluateUncancelled _ _ = _
    rw [evaluateUncancelled, valuesAt_fraction hsize hq]
    rfl

end Engine

end FunctionCache
