import FunctionCache.Engine
import FunctionCache.Proofs.Computation
import FunctionCache.Proofs.Polynomial.Constants

/-!
# What results inherit from operands

Operations on functions combine the polynomials of their operands and bring the
results into normal form. So a property of functions passes from the operands of
every operation to its result if it rests on a property of polynomials that sums
and products keep, and if normalising establishes it. `Hereditary` lists what
has to be shown of the two properties; `Hereditary.compute` is the conclusion.
-/

namespace FunctionCache

namespace RationalFunction

/-- Sums, products and the normal form make functions with `Q` from polynomials with `P`. -/
structure Hereditary (n : Nat) (P : Polynomial → Prop) (Q : RationalFunction → Prop) : Prop where
  -- polynomials
  constant (c : Rat) : P (Polynomial.constant n c)
  var {i : Nat} {p : Polynomial} : Polynomial.var n i = .ok p → P p
  add {p q : Polynomial} : P p → P q → P (p.add q)
  mul {p q r : Polynomial} : P p → P q → p.mul q = .ok r → P r
  -- functions
  parts {p q : Polynomial} : Q (fraction p q) → P p ∧ P q
  polynomial {p : Polynomial} : P p → Q (ofPolynomial n p)
  normalized {p q : Polynomial} {f : RationalFunction} : P p → P q → ofFraction p q = .ok f → Q f
  neg {f : RationalFunction} : Q f → Q f.neg
  nan : Q nan
  infinity (positive : Bool) : Q (infinity positive)

/-- A sum of fractions: over their common denominator, or else over the product of the two. -/
theorem add_fraction (p₁ q₁ p₂ q₂ : Polynomial) :
    (fraction p₁ q₁).add (fraction p₂ q₂) =
      if q₁ = q₂ then ofFraction (p₁.add p₂) q₁
      else (do ofFraction ((← p₁.mul q₂).add (← p₂.mul q₁)) (← q₁.mul q₂)) := rfl

/-- A product of fractions multiplies both parts before it is brought into normal form. -/
theorem mul_fraction (p₁ q₁ p₂ q₂ : Polynomial) :
    (fraction p₁ q₁).mul (fraction p₂ q₂) = (do ofFraction (← p₁.mul p₂) (← q₁.mul q₂)) := rfl

theorem zero_eq_constant (n : Nat) : zero n = constant n 0 := by
  rw [constant, Polynomial.constant_zero]
  rfl

namespace Hereditary

variable {n : Nat} {P : Polynomial → Prop} {Q : RationalFunction → Prop} {a b f : RationalFunction}

/-- Constants have the property, for constant polynomials have theirs. -/
theorem of_constant (h : Hereditary n P Q) (c : Rat) : Q (RationalFunction.constant n c) :=
  h.polynomial (h.constant c)

/-- An infinity multiplied by a function is an infinity or `nan`. -/
theorem of_scaleInfinity (h : Hereditary n P Q) (positive : Bool) (f : RationalFunction) :
    Q (scaleInfinity positive f) := by
  unfold scaleInfinity
  split
  · -- the sign of a constant decides which infinity it is; with 0 it is `nan`
    split_ifs
    · exact h.infinity _
    · exact h.infinity _
    · exact h.nan
  · -- a function that is not constant has no sign
    exact h.nan

/-- **Sums** inherit the property. -/
theorem of_add (h : Hereditary n P Q) (ha : Q a) (hb : Q b) (hf : a.add b = .ok f) : Q f := by
  rcases a with ⟨p₁, q₁⟩ | _ | _ | _ <;> rcases b with ⟨p₂, q₂⟩ | _ | _ | _
  case fraction.fraction =>
    obtain ⟨hp₁, hq₁⟩ := h.parts ha
    obtain ⟨hp₂, hq₂⟩ := h.parts hb
    rw [add_fraction] at hf
    split_ifs at hf
    · -- one denominator
      exact h.normalized (h.add hp₁ hp₂) hq₁ hf
    · -- cross products over the product of the denominators
      obtain ⟨left, hleft, hf⟩ := Failing.bind_eq_ok.mp hf
      obtain ⟨right, hright, hf⟩ := Failing.bind_eq_ok.mp hf
      obtain ⟨below, hbelow, hf⟩ := Failing.bind_eq_ok.mp hf
      have hP := h.add (h.mul hp₁ hq₂ (Failing.lift_eq_ok.mp hleft))
        (h.mul hp₂ hq₁ (Failing.lift_eq_ok.mp hright))
      exact h.normalized hP (h.mul hq₁ hq₂ (Failing.lift_eq_ok.mp hbelow)) hf
  -- a summand that is no fraction leaves NaN or an infinity
  all_goals
    cases hf
    first
      | exact h.nan
      | exact h.infinity true
      | exact h.infinity false

/-- **Products** inherit the property. -/
theorem of_mul (h : Hereditary n P Q) (ha : Q a) (hb : Q b) (hf : a.mul b = .ok f) : Q f := by
  rcases a with ⟨p₁, q₁⟩ | _ | _ | _ <;> rcases b with ⟨p₂, q₂⟩ | _ | _ | _
  case fraction.fraction =>
    obtain ⟨hp₁, hq₁⟩ := h.parts ha
    obtain ⟨hp₂, hq₂⟩ := h.parts hb
    rw [mul_fraction] at hf
    -- the numerators first, as the computation does, then the denominators
    obtain ⟨above, habove, hf⟩ := Failing.bind_eq_ok.mp hf
    obtain ⟨below, hbelow, hf⟩ := Failing.bind_eq_ok.mp hf
    exact h.normalized (h.mul hp₁ hp₂ (Failing.lift_eq_ok.mp habove))
      (h.mul hq₁ hq₂ (Failing.lift_eq_ok.mp hbelow)) hf
  -- a factor that is no fraction leaves `nan` or an infinity
  all_goals
    cases hf
    first
      | exact h.nan
      | exact h.infinity true
      | exact h.infinity false
      | exact h.of_scaleInfinity ..

/-- **Quotients** inherit the property: nothing but reciprocals and products is made. -/
theorem of_div (h : Hereditary n P Q) (ha : Q a) (hb : Q b) (hf : a.div n b = .ok f) : Q f := by
  unfold div at hf
  split at hf
  · -- the divisor is 0
    cases hf
  · -- a quotient is the product with the reciprocal
    obtain ⟨r, hr, hf⟩ := Failing.bind_eq_ok.mp hf
    refine h.of_mul ha ?_ hf
    cases b with
    | fraction p q =>
      -- the reciprocal exchanges the two parts
      obtain ⟨hp, hq⟩ := h.parts hb
      exact h.normalized hq hp hr
    | nan =>
      cases hr
      exact h.nan
    | posInf | negInf =>
      -- the reciprocal of an infinity is 0
      cases hr
      rw [zero_eq_constant]
      exact h.of_constant 0

/-- **Closures** inherit the property: they are 1 over 1 minus the operand. -/
theorem of_star (h : Hereditary n P Q) (ha : Q a) (hf : a.star n = .ok f) : Q f := by
  have hone : Q (one n) := h.of_constant 1
  obtain ⟨exit, hexit, hf⟩ := Failing.bind_eq_ok.mp hf
  split at hf
  · -- the closure of 1 is infinite
    cases hf
    exact h.infinity true
  · exact h.of_div hone (h.of_add hone (h.neg ha) hexit) hf

/-- **Constraints** inherit the property: they are products of the two parts. -/
theorem of_toConstraint (h : Hereditary n P Q) (ha : Q a) (hf : a.toConstraint n = .ok f) :
    Q f := by
  cases a with
  | fraction p q =>
    obtain ⟨hp, hq⟩ := h.parts ha
    obtain ⟨r, hr, hf⟩ := Failing.bind_eq_ok.mp hf
    cases hf
    exact h.polynomial (h.mul hp hq (Failing.lift_eq_ok.mp hr))
  | nan | posInf | negInf =>
    cases hf
    exact ha

variable {e : Engine}

/-- The constants that the engine offers have the property. -/
theorem engine_constant (h : Hereditary e.numVars P Q) (c : Constant) : Q (e.constant c) := by
  cases c with
  | one => exact h.of_constant 1
  | zero =>
    show Q (zero e.numVars)
    rw [zero_eq_constant]
    exact h.of_constant 0
  | rational c => exact h.of_constant c
  | nan => exact h.nan
  | posInf => exact h.infinity true
  | negInf => exact h.infinity false

/-- **Every operation of the engine** passes the property from its operands to its result. -/
theorem compute (h : Hereditary e.numVars P Q) {op : Operation RationalFunction}
    (hop : ∀ a ∈ op.operands, Q a) (hf : e.compute op = .ok f) : Q f := by
  cases op with
  | parameter i =>
    -- a parameter is a variable over 1, if there is one of that number
    simp only [Engine.compute, Engine.parameter] at hf
    split at hf
    · obtain ⟨p, hp, hf⟩ := Failing.bind_eq_ok.mp hf
      cases hf
      exact h.polynomial (h.var (Failing.lift_eq_ok.mp hp))
    · cases hf
  | add a b =>
    exact h.of_add (hop a (by simp [Operation.operands])) (hop b (by simp [Operation.operands])) hf
  | subtract a b =>
    -- a difference is the sum with the opposite
    exact h.of_add (hop a (by simp [Operation.operands]))
      (h.neg (hop b (by simp [Operation.operands]))) hf
  | multiply a b =>
    exact h.of_mul (hop a (by simp [Operation.operands])) (hop b (by simp [Operation.operands])) hf
  | divide a b =>
    exact h.of_div (hop a (by simp [Operation.operands])) (hop b (by simp [Operation.operands])) hf
  | negate a =>
    cases hf
    exact h.neg (hop a (by simp [Operation.operands]))
  | star a => exact h.of_star (hop a (by simp [Operation.operands])) hf
  | constraint a => exact h.of_toConstraint (hop a (by simp [Operation.operands])) hf

end Hereditary

end RationalFunction

end FunctionCache
