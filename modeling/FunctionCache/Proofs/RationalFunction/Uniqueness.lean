import FunctionCache.Proofs.RationalFunction.Polynomials

/-!
# What the normal form identifies

Normalising is a choice of one fraction out of each class of fractions that are
0, have one constant value, or differ by monomials and a constant. It makes no
other fractions equal: it computes no greatest common divisors, so
`(x² - 1) / (x - 1)` and `x + 1` stay different.

* `NormalFraction.eq_of_identified` — no class has two normal forms;
* `RationalFunction.ofFraction_of_normal` — normalising a normal form;
* `RationalFunction.ofFraction_eq_of_identified`, `exists_ofFraction_eq_iff` — fractions of one
  class and of different ones;
* `Engine.normalizing_identifies` — the result.
-/

namespace FunctionCache

open MvPolynomial (C monomial)

namespace NormalFraction

variable {n : ℕ} {M : Monomial → Prop} {p q p₁ q₁ p₂ q₂ : Polynomial} {s₁ s₂ : ℕ →₀ ℕ} {c r : ℚ}

/-! ## Two normal forms -/

/-- The denominator 1 leads with 1, too. -/
theorem leads (h : NormalFraction n p q) : q.leadingCoeff? = some 1 := by
  cases hconstant : q.isConstant with
  | true =>
    rw [h.of_isConstant hconstant, Polynomial.leadingCoeff?, Polynomial.one,
      Polynomial.terms_constant, Terms.consNonzero, if_neg one_ne_zero]
    rfl
  | false => exact h.leadingCoeff hconstant

/-- No parameter divides the denominator 1. -/
theorem lacks (h : NormalFraction n p q) : p.NoCommonParameter q := by
  cases hconstant : q.isConstant with
  | true =>
    intro i
    refine ⟨(Monomial.one n, 1), Or.inr ?_, Monomial.isOne_iff.mp (Monomial.isOne_one n) i⟩
    rw [h.of_isConstant hconstant, Polynomial.one, Polynomial.terms_constant, Terms.consNonzero,
      if_neg one_ne_zero]
    exact List.mem_singleton_self _
  | false => exact h.noCommonParameter hconstant

/-- A monomial that both parts have as a factor on one side is a factor of the monomial on the
other side. -/
theorem exponents_le (h : NormalFraction n p₁ q₁)
    (hp : monomial s₂ 1 * p₁.toMvPolynomial = monomial s₁ c * p₂.toMvPolynomial)
    (hq : monomial s₂ 1 * q₁.toMvPolynomial = monomial s₁ c * q₂.toMvPolynomial) : s₁ ≤ s₂ := by
  intro i
  obtain ⟨t, ht, hti⟩ := h.lacks i
  have hle : s₁ ≤ s₂ + t.1.exponents := by
    rcases ht with ht | ht
    · exact MonomialProducts.le_add_exponents h.numerator hp ht
    · exact MonomialProducts.le_add_exponents h.denominator hq ht
  -- this term does not contain the parameter
  have hlei := hle i
  rwa [Finsupp.add_apply, Monomial.exponents_apply, hti, add_zero] at hlei

/-- The constant 1 is the only one between two denominators that lead with 1. -/
theorem eq_one_of_scale (h₁ : NormalFraction n p₁ q₁) (h₂ : NormalFraction n p₂ q₂) (hc : c ≠ 0)
    (h : q₁ = q₂.scale c) : c = 1 := by
  have hlead := h₁.leads
  rw [h, Polynomial.leadingCoeff?_scale hc, h₂.leads, Option.map_some, one_mul] at hlead
  exact Option.some.inj hlead

/-- Normal forms that are the same up to monomials are the same. -/
theorem eq_of_sameUpToMonomials (h₁ : NormalFraction n p₁ q₁) (h₂ : NormalFraction n p₂ q₂)
    (h : SameUpToMonomials M p₁ q₁ p₂ q₂) : p₁ = p₂ ∧ q₁ = q₂ := by
  obtain ⟨m₁, m₂, c, -, -, hc, hp, hq⟩ := h
  -- the monomials on both sides are the same
  have hle := h₁.exponents_le hp hq
  have hge := h₂.exponents_le (MonomialProducts.symm hc hp) (MonomialProducts.symm hc hq)
  rw [le_antisymm hle hge] at hp hq
  have hcancel {p p' : Polynomial} (hwp : p.WellFormed n) (hwp' : p'.WellFormed n)
      (h : monomial m₂.exponents 1 * p.toMvPolynomial =
        monomial m₂.exponents c * p'.toMvPolynomial) : p = p'.scale c := by
    refine hwp.eq_of_toMvPolynomial_eq (hwp'.scale c) ?_
    refine mul_left_cancel₀ (MonomialProducts.ne_zero m₂.exponents one_ne_zero) ?_
    rw [h, MonomialProducts.eq_C_mul, Polynomial.toMvPolynomial_scale]
    ring
  have hpc := hcancel h₁.numerator h₂.numerator hp
  have hqc := hcancel h₁.denominator h₂.denominator hq
  rw [h₁.eq_one_of_scale h₂ hc hqc, Polynomial.scale_one] at hpc hqc
  exact ⟨hpc, hqc⟩

/-- The normal form of a constant. -/
theorem eq_of_multiple (h : NormalFraction n p q) (hr : p = q.scale r) :
    p = .constant n r ∧ q = .one n := by
  cases hconstant : q.isConstant with
  | true =>
    have hq := h.of_isConstant hconstant
    rw [hr, hq, Polynomial.one, Polynomial.scale_constant, one_mul]
    exact ⟨rfl, rfl⟩
  | false => exact absurd hr (h.not_multiple hconstant r)

/-- **No two normal forms are identified.** -/
theorem eq_of_identified (h₁ : NormalFraction n p₁ q₁) (h₂ : NormalFraction n p₂ q₂)
    (h : Identified n M p₁ q₁ p₂ q₂) : p₁ = p₂ ∧ q₁ = q₂ := by
  rcases h.cases h₁.denominator h₂.denominator with ⟨r, hr₁, hr₂⟩ | h
  · obtain ⟨hp₁, hq₁⟩ := h₁.eq_of_multiple hr₁
    obtain ⟨hp₂, hq₂⟩ := h₂.eq_of_multiple hr₂
    exact ⟨hp₁.trans hp₂.symm, hq₁.trans hq₂.symm⟩
  · exact h₁.eq_of_sameUpToMonomials h₂ h

end NormalFraction

/-! ## Normalising -/

namespace RationalFunction

variable {n : ℕ} {p q p₁ q₁ p₂ q₂ : Polynomial}

/-- **Fractions of one class** have one normal form. -/
theorem ofFraction_eq_of_identified (hp₁ : p₁.WellFormed n) (hq₁ : q₁.WellFormed n)
    (hp₂ : p₂.WellFormed n) (hq₂ : q₂.WellFormed n) (hq₁0 : q₁.isZero = false)
    (hq₂0 : q₂.isZero = false) (h : Identified n (Monomial.OfLength n) p₁ q₁ p₂ q₂) :
    ofFraction p₁ q₁ = ofFraction p₂ q₂ := by
  obtain ⟨p₁', q₁', hf₁, hreduces₁, h₁⟩ := ofFraction_identified hp₁ hq₁ hq₁0
  obtain ⟨p₂', q₂', hf₂, hreduces₂, h₂⟩ := ofFraction_identified hp₂ hq₂ hq₂0
  have hn₁ := hreduces₁.normal
  have hn₂ := hreduces₂.normal
  -- from the first normal form over both fractions to the second one
  have hmiddle := h.trans h₂ hp₁ hq₁ hq₂ hn₂.numerator hn₂.denominator hq₂0
  have hends := h₁.symm.trans hmiddle hn₁.numerator hn₁.denominator hq₁ hn₂.numerator
    hn₂.denominator hq₁0
  obtain ⟨rfl, rfl⟩ := hn₁.eq_of_identified hn₂ hends
  rw [hf₁, hf₂]

/-- **Fractions of different classes** have different normal forms. -/
theorem exists_ofFraction_eq_iff (hp₁ : p₁.WellFormed n) (hq₁ : q₁.WellFormed n)
    (hp₂ : p₂.WellFormed n) (hq₂ : q₂.WellFormed n) (hq₁0 : q₁.isZero = false)
    (hq₂0 : q₂.isZero = false) :
    ∃ f₁ f₂, ofFraction p₁ q₁ = .ok f₁ ∧ ofFraction p₂ q₂ = .ok f₂ ∧
      (f₁ = f₂ ↔ Identified n (Monomial.OfLength n) p₁ q₁ p₂ q₂) := by
  obtain ⟨p₁', q₁', hf₁, hreduces₁, h₁⟩ := ofFraction_identified hp₁ hq₁ hq₁0
  obtain ⟨p₂', q₂', hf₂, -, h₂⟩ := ofFraction_identified hp₂ hq₂ hq₂0
  have hn₁ := hreduces₁.normal
  refine ⟨_, _, hf₁, hf₂, fun h => ?_, fun h => ?_⟩
  · -- both are in the class of the result
    injection h with hp hq
    rw [← hp, ← hq] at h₂
    exact h₁.trans h₂.symm hp₁ hq₁ hn₁.denominator hp₂ hq₂ hn₁.ne_zero
  · have hsame := ofFraction_eq_of_identified hp₁ hq₁ hp₂ hq₂ hq₁0 hq₂0 h
    rw [hf₁, hf₂] at hsame
    exact Except.ok.inj hsame

/-- Normalising leaves a normal form as it is. -/
theorem ofFraction_of_normal (h : NormalFraction n p q) :
    ofFraction p q = .ok (fraction p q) := by
  obtain ⟨p', q', hf, hreduces, hidentified⟩ :=
    ofFraction_identified h.numerator h.denominator h.ne_zero
  obtain ⟨rfl, rfl⟩ := h.eq_of_identified hreduces.normal hidentified
  exact hf

end RationalFunction

namespace Engine

open RationalFunction

variable {e : Engine}

/-- **Normalising identifies** two fractions if both are 0, if both have one constant value, or if
they differ by monomials and a constant, and no other fractions; exponents in range are enough for
the monomials, and exponents of any size make no difference. So it leaves the two parts of a
function as they are. -/
theorem normalizing_identifies (e : Engine) :
    (∀ {p₁ q₁ p₂ q₂ : Polynomial}, p₁.WellFormed e.numVars → q₁.WellFormed e.numVars →
      p₂.WellFormed e.numVars → q₂.WellFormed e.numVars → q₁ ≠ .zero e.numVars →
      q₂ ≠ .zero e.numVars →
      ∃ f₁ f₂, ofFraction p₁ q₁ = .ok f₁ ∧ ofFraction p₂ q₂ = .ok f₂ ∧
        (f₁ = f₂ ↔ Identified e.numVars (Monomial.WellFormed e.numVars) p₁ q₁ p₂ q₂) ∧
        (f₁ = f₂ ↔ Identified e.numVars (Monomial.OfLength e.numVars) p₁ q₁ p₂ q₂)) ∧
    ∀ {f : RationalFunction} {p q : Polynomial}, e.Constructible f → f.numerator? = some p →
      f.denominator? = some q → ofFraction p q = .ok f := by
  constructor
  · intro p₁ q₁ p₂ q₂ hp₁ hq₁ hp₂ hq₂ hne₁ hne₂
    have hq₁0 := hq₁.isZero_eq_false_iff.mpr hne₁
    have hq₂0 := hq₂.isZero_eq_false_iff.mpr hne₂
    obtain ⟨f₁, f₂, hf₁, hf₂, hiff⟩ := exists_ofFraction_eq_iff hp₁ hq₁ hp₂ hq₂ hq₁0 hq₂0
    -- the two characterisations differ in the range of the monomials only
    refine ⟨f₁, f₂, hf₁, hf₂, hiff.trans ⟨fun h => ?_, fun h => ?_⟩, hiff⟩
    · exact h.inRange hq₁ hq₂ hq₁0 hq₂0
    · exact h.mono fun m hm => hm.length
  · intro f p q hf hp hq
    cases f with
    | fraction p' q' =>
      cases hp
      cases hq
      exact ofFraction_of_normal (constructible_inNormalForm hf)
    | nan | posInf | negInf => cases hp

/-- The quotients `xy / (4x + 2xy)` and `3y² / (12y + 6y²)` differ by `x` and `3y`, so they become
the same function, and this one is left as it is. The quotient `(x² - 1) / (x - 1)` has the values
of `x + 1` but is another function. -/
theorem normalizing_identifies_quotients :
    Identified 2 (Monomial.WellFormed 2) (.ofTerms 2 [([1, 1], 1)])
        (.ofTerms 2 [([1, 0], 4), ([1, 1], 2)]) (.ofTerms 2 [([0, 2], 3)])
        (.ofTerms 2 [([0, 1], 12), ([0, 2], 6)]) ∧
      ofFraction (.ofTerms 2 [([0, 1], 1/2)]) (.ofTerms 2 [([0, 0], 2), ([0, 1], 1)]) =
        .ok (fraction (.ofTerms 2 [([0, 1], 1/2)]) (.ofTerms 2 [([0, 0], 2), ([0, 1], 1)])) ∧
      ¬Identified 2 (Monomial.WellFormed 2) (.ofTerms 2 [([0, 0], -1), ([2, 0], 1)])
        (.ofTerms 2 [([0, 0], -1), ([1, 0], 1)]) (.ofTerms 2 [([0, 0], 1), ([1, 0], 1)])
        (.one 2) := by
  obtain ⟨hidentifies, hleaves⟩ := normalizing_identifies (ofNames ["x", "y"])
  have hp₁ : (Polynomial.ofTerms 2 [([1, 1], 1)]).WellFormed 2 :=
    Polynomial.wellFormed_ofTerms (by decide)
  have hq₁ : (Polynomial.ofTerms 2 [([1, 0], 4), ([1, 1], 2)]).WellFormed 2 :=
    Polynomial.wellFormed_ofTerms (by decide)
  have hf : ofFraction (.ofTerms 2 [([1, 1], 1)]) (.ofTerms 2 [([1, 0], 4), ([1, 1], 2)]) =
      .ok (fraction (.ofTerms 2 [([0, 1], 1/2)]) (.ofTerms 2 [([0, 0], 2), ([0, 1], 1)])) := by
    decide +kernel
  refine ⟨?_, ?_, ?_⟩
  · have hp₂ : (Polynomial.ofTerms 2 [([0, 2], 3)]).WellFormed 2 :=
      Polynomial.wellFormed_ofTerms (by decide)
    have hq₂ : (Polynomial.ofTerms 2 [([0, 1], 12), ([0, 2], 6)]).WellFormed 2 :=
      Polynomial.wellFormed_ofTerms (by decide)
    have hf' : ofFraction (.ofTerms 2 [([0, 2], 3)]) (.ofTerms 2 [([0, 1], 12), ([0, 2], 6)]) =
        .ok (fraction (.ofTerms 2 [([0, 1], 1/2)]) (.ofTerms 2 [([0, 0], 2), ([0, 1], 1)])) := by
      decide +kernel
    obtain ⟨f₁, f₂, hf₁, hf₂, hiff, -⟩ :=
      hidentifies hp₁ hq₁ hp₂ hq₂ (by decide +kernel) (by decide +kernel)
    refine hiff.mp ?_
    cases hf.symm.trans hf₁
    cases hf'.symm.trans hf₂
    rfl
  · exact hleaves (Constructible.fraction hp₁ hq₁ hf) rfl rfl
  · have hp : (Polynomial.ofTerms 2 [([0, 0], -1), ([2, 0], 1)]).WellFormed 2 :=
      Polynomial.wellFormed_ofTerms (by decide)
    have hq : (Polynomial.ofTerms 2 [([0, 0], -1), ([1, 0], 1)]).WellFormed 2 :=
      Polynomial.wellFormed_ofTerms (by decide)
    have hsum : (Polynomial.ofTerms 2 [([0, 0], 1), ([1, 0], 1)]).WellFormed 2 :=
      Polynomial.wellFormed_ofTerms (by decide)
    obtain ⟨f₁, f₂, hf₁, hf₂, hiff, -⟩ := hidentifies hp hq hsum (Polynomial.wellFormed_one 2)
      (by decide +kernel) (by decide +kernel)
    intro hidentified
    rw [hiff.mpr hidentified] at hf₁
    exact absurd (hf₁.trans hf₂.symm) (by decide +kernel)

end Engine

end FunctionCache
