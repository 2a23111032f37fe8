import FunctionCache.Proofs.RationalFunction.Division
import FunctionCache.Proofs.RationalFunction.NormalForm

/-!
# Values of rational functions

Where two functions have values, the value of their sum is the sum of their
values, and so on: normalising takes the same factor out of both parts of a
fraction, and at a point where the denominator is not 0 this factor is not 0
either. Exponents that leave their range are the only obstacle, and they do not
leave it if all exponents of the operands are at most half of the largest one.

* `RationalFunction.FailsAt`, `evaluate_eq_error_iff` — the errors of evaluation;
* `RationalFunction.evaluate_ofFraction` — normalising keeps values;
* `RationalFunction.evaluate_ofFraction_of_pole` — and poles;
* `RationalFunction.normalizing_keeps_function` — normalising succeeds for every
  denominator but 0, and keeps both;
* `RationalFunction.OverflowsOr` — a result, unless there are large exponents;
* `Engine.ArithmeticAt` — the values of the results at a point;
* `Engine.arithmetic_at` — the result.
-/

namespace FunctionCache

namespace RationalFunction

variable {n : ℕ} {p q : Polynomial} {a b f : RationalFunction} {point : Point} {x y : ℚ}

/-! ## Evaluation -/

/-- The errors of evaluation, of which the first one that applies is reported. -/
inductive FailsAt (n : ℕ) (f : RationalFunction) (point : Point) : FunctionError → Prop
  | dimensionMismatch : point.size ≠ n → FailsAt n f point (.dimensionMismatch n point.size)
  | notRational : point.size = n → f.denominator? = none →
      FailsAt n f point (.notRational (f.text []))
  | divisionByZero {q : Polynomial} : point.size = n → f.denominator? = some q →
      q.evaluate point.coordinates = 0 → FailsAt n f point .divisionByZero

/-- The three reasons are what the evaluation tests for, in this order. -/
theorem valuesAt_of_failsAt {error : FunctionError} (h : f.FailsAt n point error) :
    f.valuesAt n point = .error error := by
  -- one case for each reason, since each is found out by a test of its own
  unfold valuesAt
  cases h with
  | dimensionMismatch hsize =>
    rw [if_pos hsize]
    rfl
  | notRational hsize hspecial =>
    rw [if_neg (not_not.mpr hsize)]
    cases f with
    | fraction p q => cases hspecial
    | nan | posInf | negInf => rfl
  | divisionByZero hsize hdenominator hzero =>
    rw [if_neg (not_not.mpr hsize)]
    cases f with
    | fraction p q =>
      cases hdenominator
      dsimp only
      rw [if_pos hzero]
      rfl
    | nan | posInf | negInf => cases hdenominator

/-- At the right number of coordinates, and away from its poles, a fraction has two values. -/
theorem valuesAt_fraction (hsize : point.size = n) (hq : q.evaluate point.coordinates ≠ 0) :
    (fraction p q).valuesAt n point =
      .ok (p.evaluate point.coordinates, q.evaluate point.coordinates) := by
  unfold valuesAt
  rw [if_neg (not_not.mpr hsize)]
  dsimp only
  rw [if_neg hq]
  rfl

/-- **Evaluation** fails, or there are values of numerator and denominator and the latter is not
0. -/
theorem failsAt_or_fraction (n : ℕ) (f : RationalFunction) (point : Point) :
    (∃ error, f.FailsAt n point error) ∨
      point.size = n ∧ ∃ p q, f = fraction p q ∧ q.evaluate point.coordinates ≠ 0 := by
  -- the tests in their order: the coordinates, the kind of function, the denominator
  by_cases hsize : point.size = n
  · cases f with
    | fraction p q =>
      by_cases hzero : q.evaluate point.coordinates = 0
      · exact Or.inl ⟨_, .divisionByZero hsize rfl hzero⟩
      · exact Or.inr ⟨hsize, p, q, rfl, hzero⟩
    | nan | posInf | negInf => exact Or.inl ⟨_, .notRational hsize rfl⟩
  · exact Or.inl ⟨_, .dimensionMismatch hsize⟩

/-- A value fails for the reason for which the values of the parts do. -/
theorem evaluate_of_failsAt {error : FunctionError} (h : f.FailsAt n point error) :
    f.evaluate n point = .error error := by
  rw [evaluate, valuesAt_of_failsAt h]
  rfl

/-- The value of a fraction is the quotient of the values of its parts. -/
theorem evaluate_fraction (hsize : point.size = n) (hq : q.evaluate point.coordinates ≠ 0) :
    (fraction p q).evaluate n point =
      .ok (p.evaluate point.coordinates / q.evaluate point.coordinates) := by
  rw [evaluate, valuesAt_fraction hsize hq]
  rfl

/-- There are no other reasons to have no value. -/
theorem evaluate_eq_error_iff {error : FunctionError} :
    f.evaluate n point = .error error ↔ f.FailsAt n point error := by
  refine ⟨fun h => ?_, evaluate_of_failsAt⟩
  -- a reason is there anyway, and it is the one that was reported
  rcases failsAt_or_fraction n f point with ⟨other, hother⟩ | ⟨hsize, p, q, rfl, hq⟩
  · cases (evaluate_of_failsAt hother).symm.trans h
    exact hother
  · cases (evaluate_fraction hsize hq).symm.trans h

/-- Only fractions have values. -/
theorem evaluate_eq_ok_iff : f.evaluate n point = .ok x ↔
    point.size = n ∧ ∃ p q, f = fraction p q ∧ q.evaluate point.coordinates ≠ 0 ∧
      p.evaluate point.coordinates / q.evaluate point.coordinates = x := by
  constructor
  · intro h
    rcases failsAt_or_fraction n f point with ⟨error, herror⟩ | ⟨hsize, p, q, rfl, hq⟩
    · cases (evaluate_of_failsAt herror).symm.trans h
    · cases (evaluate_fraction hsize hq).symm.trans h
      exact ⟨hsize, p, q, rfl, hq, rfl⟩
  · rintro ⟨hsize, p, q, rfl, hq, rfl⟩
    exact evaluate_fraction hsize hq

theorem evaluate_of_pole (hsize : point.size = n) (hq : q.evaluate point.coordinates = 0) :
    (fraction p q).evaluate n point = .error .divisionByZero :=
  evaluate_of_failsAt (.divisionByZero hsize rfl hq)

end RationalFunction

/-- At a point, too, both parts have lost the same factor. -/
theorem Reduces.exists_factor {n : ℕ} {p q p' q' : Polynomial} (h : Reduces n p q p' q')
    (point : List ℚ) :
    ∃ k, p.evaluate point = k * p'.evaluate point ∧ q.evaluate point = k * q'.evaluate point := by
  obtain ⟨k, hp, hq⟩ := h.factor
  refine ⟨MvPolynomial.eval (fun i => point.getD i 1) k, ?_, ?_⟩
  · rw [Polynomial.evaluate_eq, Polynomial.evaluate_eq, hp, map_mul]
  · rw [Polynomial.evaluate_eq, Polynomial.evaluate_eq, hq, map_mul]

namespace RationalFunction

variable {n : ℕ} {p q : Polynomial} {a b f : RationalFunction} {point : Point} {x y : ℚ}

/-- **Normalising keeps values.** -/
theorem evaluate_ofFraction (hp : p.WellFormed n) (hq : q.WellFormed n) (hsize : point.size = n)
    (hq0 : q.evaluate point.coordinates ≠ 0) :
    ∃ f, ofFraction p q = .ok f ∧
      f.evaluate n point = .ok (p.evaluate point.coordinates / q.evaluate point.coordinates) := by
  obtain ⟨p', q', hf, hreduces⟩ :=
    ofFraction_eq hp hq (Polynomial.isZero_of_evaluate_ne_zero hq0)
  obtain ⟨k, hkp, hkq⟩ := hreduces.exists_factor point.coordinates
  -- neither the factor nor what is left of the denominator vanishes
  have hk : k ≠ 0 := fun h => hq0 (by rw [hkq, h, zero_mul])
  have hq0' : q'.evaluate point.coordinates ≠ 0 := fun h => hq0 (by rw [hkq, h, mul_zero])
  refine ⟨fraction p' q', hf, ?_⟩
  rw [evaluate_fraction hsize hq0', hkp, hkq, mul_div_mul_left _ _ hk]

/-- **Normalising keeps poles** at which the numerator is not 0. -/
theorem evaluate_ofFraction_of_pole (hp : p.WellFormed n) (hq : q.WellFormed n)
    (hsize : point.size = n) (hzero : q.isZero = false) (hp0 : p.evaluate point.coordinates ≠ 0)
    (hq0 : q.evaluate point.coordinates = 0) :
    ∃ f, ofFraction p q = .ok f ∧ f.evaluate n point = .error .divisionByZero := by
  obtain ⟨p', q', hf, hreduces⟩ := ofFraction_eq hp hq hzero
  obtain ⟨k, hkp, hkq⟩ := hreduces.exists_factor point.coordinates
  -- the numerator has the factor too, so the pole is not in the factor
  have hk : k ≠ 0 := fun h => hp0 (by rw [hkp, h, zero_mul])
  rw [hkq] at hq0
  exact ⟨fraction p' q', hf, evaluate_of_pole hsize ((mul_eq_zero.mp hq0).resolve_left hk)⟩

/-- The function has the values of `p` over `q` and the poles at which `p` is not 0. -/
structure StandsFor (n : ℕ) (f : RationalFunction) (p q : Polynomial) : Prop where
  value (point : Point) : point.size = n → q.evaluate point.coordinates ≠ 0 →
    f.evaluate n point = .ok (p.evaluate point.coordinates / q.evaluate point.coordinates)
  pole (point : Point) : point.size = n → q.evaluate point.coordinates = 0 →
    p.evaluate point.coordinates ≠ 0 → f.evaluate n point = .error .divisionByZero

/-- **Normalising keeps the function.** It fails for the denominator 0 only, with the error that
says so, and divides no number by 0 on the way: what this would give makes no difference. -/
theorem normalizing_keeps_function (hp : p.WellFormed n) (hq : q.WellFormed n) :
    (ofFraction p q = .error (.error .divisionByZero) ↔ q = Polynomial.zero n) ∧
      (q ≠ Polynomial.zero n → ∃ f, ofFraction p q = .ok f ∧ f.StandsFor n p q) ∧
      ∀ d : Division, ofFractionBy d p q = ofFraction p q := by
  rw [Ne, ← hq.isZero_iff]
  refine ⟨?_, fun hne => ?_, fun d => by rw [ofFractionBy_eq]⟩
  · constructor
    · -- with another denominator the normal form exists
      intro h
      by_contra hne
      obtain ⟨p', q', hf, -⟩ := ofFraction_eq hp hq (Bool.not_eq_true _ ▸ hne)
      cases hf.symm.trans h
    · intro hzero
      rw [ofFraction, if_pos hzero]
      rfl
  · rw [Bool.not_eq_true] at hne
    obtain ⟨p', q', hf, -⟩ := ofFraction_eq hp hq hne
    refine ⟨_, hf, fun point hsize hq0 => ?_, fun point hsize hq0 hp0 => ?_⟩
    · -- values
      obtain ⟨f, hf', hvalue⟩ := evaluate_ofFraction hp hq hsize hq0
      cases hf.symm.trans hf'
      exact hvalue
    · -- poles
      obtain ⟨f, hf', hpole⟩ := evaluate_ofFraction_of_pole hp hq hsize hne hp0 hq0
      cases hf.symm.trans hf'
      exact hpole

/-- In `xy / (4x + 2xy)` the common parameter is cancelled and the denominator made to lead with 1:
this keeps the value `y / (4 + 2y)` wherever `x` is not 0, and the poles at `y = -2`. -/
theorem normalizing_keeps_quotient :
    ofFraction (.ofTerms 2 [([1, 1], 1)]) (.ofTerms 2 [([1, 0], 4), ([1, 1], 2)]) =
        .ok (fraction (.ofTerms 2 [([0, 1], 1/2)]) (.ofTerms 2 [([0, 0], 2), ([0, 1], 1)])) ∧
      (fraction (.ofTerms 2 [([0, 1], 1/2)]) (.ofTerms 2 [([0, 0], 2), ([0, 1], 1)])).StandsFor 2
        (.ofTerms 2 [([1, 1], 1)]) (.ofTerms 2 [([1, 0], 4), ([1, 1], 2)]) := by
  have hf : ofFraction (.ofTerms 2 [([1, 1], 1)]) (.ofTerms 2 [([1, 0], 4), ([1, 1], 2)]) =
      .ok (fraction (.ofTerms 2 [([0, 1], 1/2)]) (.ofTerms 2 [([0, 0], 2), ([0, 1], 1)])) := by
    decide +kernel
  obtain ⟨-, hkeeps, -⟩ := normalizing_keeps_function (n := 2)
    (p := .ofTerms 2 [([1, 1], 1)]) (q := .ofTerms 2 [([1, 0], 4), ([1, 1], 2)])
    (Polynomial.wellFormed_ofTerms (by decide)) (Polynomial.wellFormed_ofTerms (by decide))
  -- the denominator is not 0, so there is a normal form, and it was computed above
  obtain ⟨f, hf', hstands⟩ := hkeeps (by decide +kernel)
  cases hf.symm.trans hf'
  exact ⟨hf, hstands⟩

/-! ## Results that may overflow -/

/-- Neither part has an exponent larger than half of the largest one. -/
def SmallExponents : RationalFunction → Prop
  | fraction p q => p.SmallExponents ∧ q.SmallExponents
  | _ => True

theorem smallExponents_neg (h : a.SmallExponents) : a.neg.SmallExponents := by
  cases a with
  | fraction p q => exact ⟨h.1.neg, h.2⟩
  | nan | posInf | negInf => trivial

/-- Normalising makes no exponent larger. -/
theorem smallExponents_ofFraction (hp : p.WellFormed n) (hq : q.WellFormed n)
    (hq0 : q.isZero = false) (h : ofFraction p q = .ok f) (hsp : p.SmallExponents)
    (hsq : q.SmallExponents) : f.SmallExponents := by
  obtain ⟨p', q', hf, hreduces⟩ := ofFraction_eq hp hq hq0
  cases hf.symm.trans h
  exact hreduces.small hsp hsq

/-- There is a result, and it has the property, or an exponent leaves its range, which only
happens when the operands have large exponents. -/
def OverflowsOr (small : Prop) (result : Except Failure RationalFunction)
    (P : RationalFunction → Prop) : Prop :=
  (¬small ∧ result = .error (.fault .exponentOverflow)) ∨ ∃ f, result = .ok f ∧ P f

/-- A stronger condition on the exponents rules out as much. -/
theorem OverflowsOr.imp {small small' : Prop} {result : Except Failure RationalFunction}
    {P : RationalFunction → Prop} (h : OverflowsOr small result P) (hsmall : small' → small) :
    OverflowsOr small' result P :=
  h.imp_left fun ⟨hlarge, hresult⟩ => ⟨mt hsmall hlarge, hresult⟩

/-- A result that is there has the property. -/
theorem OverflowsOr.of_ok {small : Prop} {result : Except Failure RationalFunction}
    {P : RationalFunction → Prop} (h : OverflowsOr small result P) (hf : result = .ok f) : P f := by
  rcases h with ⟨-, h⟩ | ⟨g, h, hg⟩
  · cases hf.symm.trans h
  · cases hf.symm.trans h
    exact hg

/-- A product of polynomials is the only thing that can overflow. -/
theorem OverflowsOr.of_mul {small : Prop} {P : RationalFunction → Prop}
    {next : Polynomial → Except Failure RationalFunction}
    (hp : small → p.SmallExponents) (hq : small → q.SmallExponents)
    (h : ∀ r, p.mul q = .ok r → OverflowsOr small (next r) P) :
    OverflowsOr small (liftM (p.mul q) >>= next) P := by
  cases hr : p.mul q with
  | error e =>
    -- small exponents fit into a product
    obtain ⟨hfits, rfl⟩ := Polynomial.mul_eq_error_iff.mp hr
    exact Or.inl ⟨fun hsmall =>
      hfits (Polynomial.fits_of_smallExponents (hp hsmall) (hq hsmall)), rfl⟩
  | ok r => exact h r hr

/-- The result of arithmetic with two functions has this value at the point. -/
abbrev HasValue (n : ℕ) (point : Point) (a b : RationalFunction)
    (result : Except Failure RationalFunction) (x : ℚ) : Prop :=
  OverflowsOr (a.SmallExponents ∧ b.SmallExponents) result fun f => f.evaluate n point = .ok x

/-- A normal form has the value of the fraction that it was made from. -/
theorem hasValue_ofFraction (hp : p.WellFormed n) (hq : q.WellFormed n) (hsize : point.size = n)
    (hq0 : q.evaluate point.coordinates ≠ 0)
    (hx : p.evaluate point.coordinates / q.evaluate point.coordinates = x) :
    HasValue n point a b (ofFraction p q) x := by
  obtain ⟨f, hf, hvalue⟩ := evaluate_ofFraction hp hq hsize hq0
  exact Or.inr ⟨f, hf, hvalue.trans (congrArg Except.ok hx)⟩

/-- A quotient by a function other than 0 is the product with a normal form of its reciprocal. -/
theorem div_eq (hne : b.isZero = false) : a.div n b = (do a.mul (← b.reciprocal n)) := by
  rw [div, if_neg (by simp [hne])]

variable (ha : a.InNormalForm n) (hb : b.InNormalForm n)
variable (hx : a.evaluate n point = .ok x) (hy : b.evaluate n point = .ok y)

include hx in
theorem evaluate_neg : a.neg.evaluate n point = .ok (-x) := by
  obtain ⟨hsize, p, q, rfl, hq, rfl⟩ := evaluate_eq_ok_iff.mp hx
  refine evaluate_eq_ok_iff.mpr ⟨hsize, p.neg, q, rfl, hq, ?_⟩
  rw [Polynomial.evaluate_neg, neg_div]

include ha hb hx hy

/-- **Sums** have the sums of the values, unless an exponent overflows. -/
theorem hasValue_add : HasValue n point a b (a.add b) (x + y) := by
  obtain ⟨hsize, p₁, q₁, rfl, hq₁, rfl⟩ := evaluate_eq_ok_iff.mp hx
  obtain ⟨-, p₂, q₂, rfl, hq₂, rfl⟩ := evaluate_eq_ok_iff.mp hy
  rw [add_fraction]
  split_ifs with hq
  · -- one denominator
    subst hq
    refine hasValue_ofFraction (ha.numerator.add hb.numerator) ha.denominator hsize hq₁ ?_
    rw [Polynomial.evaluate_add, add_div]
  · -- cross products over the product of the denominators
    refine .of_mul (·.1.1) (·.2.2) fun left hleft => .of_mul (·.2.1) (·.1.2) fun right hright =>
      .of_mul (·.1.2) (·.2.2) fun below hbelow => ?_
    have hleft' := ha.numerator.evaluate_of_mul hb.denominator hleft point.coordinates
    have hright' := hb.numerator.evaluate_of_mul ha.denominator hright point.coordinates
    have hbelow' := ha.denominator.evaluate_of_mul hb.denominator hbelow point.coordinates
    refine hasValue_ofFraction
      ((ha.numerator.of_mul hb.denominator hleft).add (hb.numerator.of_mul ha.denominator hright))
      (ha.denominator.of_mul hb.denominator hbelow) hsize ?_ ?_
    · rw [hbelow']
      exact mul_ne_zero hq₁ hq₂
    · rw [Polynomial.evaluate_add, hleft', hright', hbelow', div_add_div _ _ hq₁ hq₂]
      ring

/-- **Differences** are sums with the opposite. -/
theorem hasValue_sub : HasValue n point a b (a.sub b) (x - y) := by
  rw [sub_eq_add_neg]
  have hadd := hasValue_add ha (inNormalForm_neg hb) hx (evaluate_neg hy)
  exact hadd.imp fun ⟨hsa, hsb⟩ => ⟨hsa, smallExponents_neg hsb⟩

/-- **Products** have the products of the values, unless an exponent overflows. -/
theorem hasValue_mul : HasValue n point a b (a.mul b) (x * y) := by
  obtain ⟨hsize, p₁, q₁, rfl, hq₁, rfl⟩ := evaluate_eq_ok_iff.mp hx
  obtain ⟨-, p₂, q₂, rfl, hq₂, rfl⟩ := evaluate_eq_ok_iff.mp hy
  rw [mul_fraction]
  -- two multiplications that can overflow, the numerators first
  refine .of_mul (·.1.1) (·.2.1) fun above habove => .of_mul (·.1.2) (·.2.2) fun below hbelow => ?_
  have habove' := ha.numerator.evaluate_of_mul hb.numerator habove point.coordinates
  have hbelow' := ha.denominator.evaluate_of_mul hb.denominator hbelow point.coordinates
  refine hasValue_ofFraction (ha.numerator.of_mul hb.numerator habove)
    (ha.denominator.of_mul hb.denominator hbelow) hsize ?_ ?_
  · rw [hbelow']
    exact mul_ne_zero hq₁ hq₂
  · rw [habove', hbelow', div_mul_div_comm]

/-! ## Quotients -/

/-- **Quotients** have the quotients of the values, where the divisor is not 0. -/
theorem hasValue_div (hy0 : y ≠ 0) : HasValue n point a b (a.div n b) (x / y) := by
  obtain ⟨hsize, p, q, rfl, hq, hpq⟩ := evaluate_eq_ok_iff.mp hy
  -- the numerator of the divisor is a denominator now, and it is not 0 either
  have hp : p.evaluate point.coordinates ≠ 0 := by
    intro hp
    rw [hp, zero_div] at hpq
    exact hy0 hpq.symm
  obtain ⟨f, hf, hvalue⟩ := evaluate_ofFraction hb.denominator hb.numerator hsize hp
  have hfy : f.evaluate n point = .ok y⁻¹ := by rw [hvalue, ← hpq, inv_div]
  have hne : (fraction p q).isZero = false := Polynomial.isZero_of_evaluate_ne_zero hp
  have hreciprocal : (fraction p q).reciprocal n = .ok f := hf
  rw [div_eq hne, hreciprocal, div_eq_mul_inv]
  -- the dividend times the reciprocal
  have hmul := hasValue_mul ha (inNormalForm_ofFraction hb.denominator hb.numerator hf) hx hfy
  exact hmul.imp fun ⟨hsa, hsb⟩ =>
    ⟨hsa, smallExponents_ofFraction hb.denominator hb.numerator hne hf hsb.2 hsb.1⟩

/-- A pole of the reciprocal stays one in the quotient. -/
theorem pole_div (hy0 : y = 0) (hx0 : x ≠ 0) (hne : b.isZero = false) :
    OverflowsOr (a.SmallExponents ∧ b.SmallExponents) (a.div n b) fun f =>
      f.evaluate n point = .error .divisionByZero := by
  obtain ⟨hsize, p₁, q₁, rfl, hq₁, hx'⟩ := evaluate_eq_ok_iff.mp hx
  obtain ⟨-, p₂, q₂, rfl, hq₂, hy'⟩ := evaluate_eq_ok_iff.mp hy
  have hp₁ : p₁.evaluate point.coordinates ≠ 0 := by
    intro hp₁
    rw [hp₁, zero_div] at hx'
    exact hx0 hx'.symm
  have hp₂ : p₂.evaluate point.coordinates = 0 := by
    rw [hy0] at hy'
    exact (div_eq_zero_iff.mp hy').resolve_right hq₂
  -- the reciprocal is a fraction with a pole
  obtain ⟨p, q, hpq, hreduces⟩ := ofFraction_eq hb.denominator hb.numerator hne
  obtain ⟨k, hk, hk'⟩ := hreduces.exists_factor point.coordinates
  rw [hk] at hq₂
  obtain ⟨hk0, hp⟩ := mul_ne_zero_iff.mp hq₂
  have hq : q.evaluate point.coordinates = 0 := (mul_eq_zero.mp (hk' ▸ hp₂)).resolve_left hk0
  have hreciprocal : (fraction p₂ q₂).reciprocal n = .ok (fraction p q) := hpq
  rw [div_eq hne, hreciprocal]
  have hsmall (h : p₂.SmallExponents ∧ q₂.SmallExponents) : p.SmallExponents ∧ q.SmallExponents :=
    hreduces.small h.2 h.1
  refine .of_mul (·.1.1) (fun h => (hsmall h.2).1) fun above habove =>
    .of_mul (·.1.2) (fun h => (hsmall h.2).2) fun below hbelow => Or.inr ?_
  -- and so is the product
  have hnormal := hreduces.normal
  refine evaluate_ofFraction_of_pole (ha.numerator.of_mul hnormal.numerator habove)
    (ha.denominator.of_mul hnormal.denominator hbelow) hsize ?_ ?_ ?_
  · exact ha.denominator.isZero_of_mul hnormal.denominator hbelow ha.ne_zero hnormal.ne_zero
  · rw [ha.numerator.evaluate_of_mul hnormal.numerator habove]
    exact mul_ne_zero hp₁ hp
  · rw [ha.denominator.evaluate_of_mul hnormal.denominator hbelow, hq, mul_zero]

end RationalFunction

namespace Engine

open RationalFunction (HasValue OverflowsOr)

/-- What the engine makes of two functions with the values `x` and `y` at a point, unless an
exponent leaves its range. This does not happen as long as no exponent of the two functions is
larger than half of the largest one. -/
structure ArithmeticAt (e : Engine) (point : Point) (a b : RationalFunction) (x y : ℚ) : Prop where
  add : HasValue e.numVars point a b (e.compute (.add a b)) (x + y)
  subtract : HasValue e.numVars point a b (e.compute (.subtract a b)) (x - y)
  multiply : HasValue e.numVars point a b (e.compute (.multiply a b)) (x * y)
  /-- The opposite never overflows. -/
  negate : ∃ f, e.compute (.negate a) = .ok f ∧ f.evaluate e.numVars point = .ok (-x)
  divide : y ≠ 0 → HasValue e.numVars point a b (e.compute (.divide a b)) (x / y)
  /-- A zero of the divisor is a pole of the quotient. -/
  pole : y = 0 → x ≠ 0 → b ≠ .zero e.numVars →
    OverflowsOr (a.SmallExponents ∧ b.SmallExponents) (e.compute (.divide a b)) fun f =>
      f.evaluate e.numVars point = .error .divisionByZero

/-- **Arithmetic agrees with evaluation** at every point where both functions have values. -/
theorem arithmetic_at {e : Engine} {a b : RationalFunction} {point : Point} {x y : ℚ}
    (ha : e.Constructible a) (hb : e.Constructible b)
    (hx : a.evaluate e.numVars point = .ok x) (hy : b.evaluate e.numVars point = .ok y) :
    e.ArithmeticAt point a b x y := by
  have ha' := ha.inherits (RationalFunction.hereditary_inNormalForm e.numVars)
  have hb' := hb.inherits (RationalFunction.hereditary_inNormalForm e.numVars)
  exact
    { add := RationalFunction.hasValue_add ha' hb' hx hy
      subtract := RationalFunction.hasValue_sub ha' hb' hx hy
      multiply := RationalFunction.hasValue_mul ha' hb' hx hy
      negate := ⟨a.neg, rfl, RationalFunction.evaluate_neg hx⟩
      divide := RationalFunction.hasValue_div ha' hb' hx hy
      -- a divisor that is 0 at the point only
      pole := fun hy0 hx0 hne => by
        have hzero : b.isZero = false := by
          rw [← Bool.not_eq_true, RationalFunction.isZero_iff hb']
          exact hne
        exact RationalFunction.pole_div ha' hb' hx hy hy0 hx0 hzero }

/-- The functions `x` and `x - 2` at the point 3. -/
theorem arithmetic_at_three : (ofNames ["x"]).ArithmeticAt (.ofIntegers [3])
    (.ofPolynomial 1 (.ofTerms 1 [([1], 1)])) (.ofPolynomial 1 (.ofTerms 1 [([0], -2), ([1], 1)]))
    3 1 := by
  have hx : (Polynomial.ofTerms 1 [([1], 1)]).WellFormed 1 :=
    Polynomial.wellFormed_ofTerms (by decide)
  have hy : (Polynomial.ofTerms 1 [([0], -2), ([1], 1)]).WellFormed 1 :=
    Polynomial.wellFormed_ofTerms (by decide)
  exact arithmetic_at (e := ofNames ["x"]) (.polynomial hx) (.polynomial hy) (by decide +kernel)
    (by decide +kernel)

end Engine

end FunctionCache
