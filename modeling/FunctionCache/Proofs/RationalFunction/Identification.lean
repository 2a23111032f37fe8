import FunctionCache.Proofs.Polynomial.Ring

/-!
# Fractions that differ by monomials

Two fractions count as the same if both are 0, if both have one constant value,
or if monomials and a constant make their parts equal. The products are those of
the ring, where exponents have no bound. Common factors other than monomials are
not looked for, so fractions with the same values can be different.

* `SameUpToMonomials`, `Identified` — the relation, for a choice of the monomials
  that are allowed;
* `Identified.symm`, `Identified.trans` — with exponents of any size it is an
  equivalence;
* `Identified.inRange` — exponents in range are enough;
* `Identified.flip`, `Identified.neg`, `Identified.signs` — reciprocals, opposites, and two signs.
-/

namespace FunctionCache

open MvPolynomial (C monomial)

/-! ## Products with monomials -/

namespace MonomialProducts

variable {s s₁ s₂ : ℕ →₀ ℕ} {c : ℚ} {P Q : MvPolynomial ℕ ℚ}

theorem eq_C_mul (s : ℕ →₀ ℕ) (c : ℚ) : monomial s c = C c * monomial s 1 := by
  rw [MvPolynomial.C_mul_monomial, mul_one]

theorem ne_zero (s : ℕ →₀ ℕ) (hc : c ≠ 0) : monomial s c ≠ 0 := by
  rwa [Ne, MvPolynomial.monomial_eq_zero]

/-- The constant can be taken to the other side. -/
theorem symm (hc : c ≠ 0) (h : monomial s₂ 1 * P = monomial s₁ c * Q) :
    monomial s₁ 1 * Q = monomial s₂ c⁻¹ * P := by
  rw [eq_C_mul s₁ c, mul_assoc] at h
  rw [eq_C_mul s₂ c⁻¹, mul_assoc, h, ← mul_assoc, ← MvPolynomial.C_mul, inv_mul_cancel₀ hc,
    MvPolynomial.C_1, one_mul]

/-- Both equations are multiplied by the monomial of the other one. -/
theorem trans {t₂ t₃ : ℕ →₀ ℕ} {d : ℚ} {R : MvPolynomial ℕ ℚ}
    (h : monomial s₂ 1 * P = monomial s₁ c * Q) (h' : monomial t₃ 1 * Q = monomial t₂ d * R) :
    monomial (s₂ + t₃) 1 * P = monomial (s₁ + t₂) (c * d) * R := by
  calc monomial (s₂ + t₃) 1 * P
      = monomial t₃ 1 * (monomial s₂ 1 * P) := by
        rw [add_comm, ← mul_assoc, MvPolynomial.monomial_mul, one_mul]
    _ = monomial s₁ c * (monomial t₃ 1 * Q) := by
        rw [h]
        ring
    _ = monomial (s₁ + t₂) (c * d) * R := by
        rw [h', ← mul_assoc, MvPolynomial.monomial_mul]

/-- A monomial on both sides can be left out. -/
theorem of_add (h : monomial (s₂ + s) 1 * P = monomial (s₁ + s) c * Q) :
    monomial s₂ 1 * P = monomial s₁ c * Q := by
  have hsplit (t : ℕ →₀ ℕ) (d : ℚ) : monomial (t + s) d = monomial s 1 * monomial t d := by
    rw [MvPolynomial.monomial_mul, one_mul, add_comm]
  rw [hsplit, hsplit, mul_assoc, mul_assoc] at h
  exact mul_left_cancel₀ (ne_zero s one_ne_zero) h

/-- Every term on the left has the monomial of the right as a divisor. -/
theorem le_add_exponents {n : ℕ} {p : Polynomial} (hp : p.WellFormed n)
    (h : monomial s₂ 1 * p.toMvPolynomial = monomial s₁ c * Q) {t : Term} (ht : t ∈ p.terms) :
    s₁ ≤ s₂ + t.1.exponents := by
  by_contra hle
  have hcoeff := congrArg (MvPolynomial.coeff (s₂ + t.1.exponents)) h
  rw [MvPolynomial.coeff_monomial_mul, hp.coeff_toMvPolynomial (hp.monomial t ht).length,
    one_mul, MvPolynomial.coeff_monomial_mul', if_neg hle] at hcoeff
  -- the coefficient on the left is that of the term
  exact p.nonzero t ht ((Polynomial.coeff_of_mem ht).symm.trans hcoeff)

end MonomialProducts

/-! ## The relation -/

/-- The parts of two fractions become equal when they are multiplied by monomials, and those of the
second one by a constant other than 0 as well. The exponents of the products have no bound. -/
def SameUpToMonomials (M : Monomial → Prop) (p₁ q₁ p₂ q₂ : Polynomial) : Prop :=
  ∃ (m₁ m₂ : Monomial) (c : ℚ), M m₁ ∧ M m₂ ∧ c ≠ 0 ∧
    monomial m₂.exponents 1 * p₁.toMvPolynomial = monomial m₁.exponents c * p₂.toMvPolynomial ∧
    monomial m₂.exponents 1 * q₁.toMvPolynomial = monomial m₁.exponents c * q₂.toMvPolynomial

/-- The fractions `p₁` over `q₁` and `p₂` over `q₂` are 0, have one constant value, or are the same
up to monomials in `M`. -/
inductive Identified (n : ℕ) (M : Monomial → Prop) (p₁ q₁ p₂ q₂ : Polynomial) : Prop
  | zero (h₁ : p₁ = .zero n) (h₂ : p₂ = .zero n)
  | multiple {r : ℚ} (hr : r ≠ 0) (h₁ : p₁ = q₁.scale r) (h₂ : p₂ = q₂.scale r)
  | monomials (h : SameUpToMonomials M p₁ q₁ p₂ q₂)

/-- A choice of exponents for `n` parameters, of any size. -/
abbrev Monomial.OfLength (n : ℕ) (m : Monomial) : Prop := m.length = n

section

variable {n : ℕ} {M : Monomial → Prop} {p q p₁ q₁ p₂ q₂ p₃ q₃ : Polynomial} {r : ℚ}

theorem SameUpToMonomials.mono {M' : Monomial → Prop} (hM : ∀ m, M m → M' m)
    (h : SameUpToMonomials M p₁ q₁ p₂ q₂) : SameUpToMonomials M' p₁ q₁ p₂ q₂ := by
  obtain ⟨m₁, m₂, c, hm₁, hm₂, h⟩ := h
  exact ⟨m₁, m₂, c, hM m₁ hm₁, hM m₂ hm₂, h⟩

/-- A monomial factor of both parts can be left out. -/
theorem SameUpToMonomials.of_factor {m : Monomial} {c : ℚ} (hm : m.length = n) (hc : c ≠ 0)
    (hp : p₁.toMvPolynomial = monomial m.exponents c * p₂.toMvPolynomial)
    (hq : q₁.toMvPolynomial = monomial m.exponents c * q₂.toMvPolynomial) :
    SameUpToMonomials (Monomial.OfLength n) p₁ q₁ p₂ q₂ := by
  have hone : monomial (Monomial.one n).exponents (1 : ℚ) = 1 := by
    rw [Monomial.exponents_one]
    rfl
  refine ⟨m, Monomial.one n, c, hm, (Monomial.wellFormed_one n).length, hc, ?_, ?_⟩
  · rw [hone, one_mul, hp]
  · rw [hone, one_mul, hq]

/-- Dividing both parts by a constant. -/
theorem SameUpToMonomials.scale_inv (n : ℕ) (p q : Polynomial) {c : ℚ} (hc : c ≠ 0) :
    SameUpToMonomials (Monomial.OfLength n) p q (p.scale c⁻¹) (q.scale c⁻¹) := by
  have hone : monomial (Monomial.one n).exponents c = C c := by
    rw [Monomial.exponents_one]
    rfl
  refine .of_factor (Monomial.wellFormed_one n).length hc ?_ ?_
  · rw [hone, ← p.toMvPolynomial_scale_inv hc]
  · rw [hone, ← q.toMvPolynomial_scale_inv hc]

/-- **The relation is reflexive**: both monomials are 1. -/
theorem SameUpToMonomials.refl (n : ℕ) (p q : Polynomial) :
    SameUpToMonomials (Monomial.OfLength n) p q p q := by
  have h := scale_inv n p q (one_ne_zero (α := ℚ))
  rwa [inv_one, Polynomial.scale_one, Polynomial.scale_one] at h

/-- A constant denominator can be divided out. -/
theorem SameUpToMonomials.overConstant (n : ℕ) (p : Polynomial) {c : ℚ} (hc : c ≠ 0) :
    SameUpToMonomials (Monomial.OfLength n) p (.constant n c) (p.scale c⁻¹) (.one n) := by
  have h := scale_inv n p (.constant n c) hc
  rwa [Polynomial.scale_constant, mul_inv_cancel₀ hc] at h

/-- **The relation is symmetric**: the coefficient goes to the other side as its inverse. -/
theorem SameUpToMonomials.symm (h : SameUpToMonomials M p₁ q₁ p₂ q₂) :
    SameUpToMonomials M p₂ q₂ p₁ q₁ := by
  obtain ⟨m₁, m₂, c, hm₁, hm₂, hc, hp, hq⟩ := h
  exact ⟨m₂, m₁, c⁻¹, hm₂, hm₁, inv_ne_zero hc, MonomialProducts.symm hc hp,
    MonomialProducts.symm hc hq⟩

/-- Reciprocals are the same up to the same monomials. -/
theorem SameUpToMonomials.flip (h : SameUpToMonomials M p₁ q₁ p₂ q₂) :
    SameUpToMonomials M q₁ p₁ q₂ p₂ := by
  obtain ⟨m₁, m₂, c, hm₁, hm₂, hc, hp, hq⟩ := h
  exact ⟨m₁, m₂, c, hm₁, hm₂, hc, hq, hp⟩

/-- **The relation is transitive**: the monomials are multiplied, and so are the coefficients. -/
theorem SameUpToMonomials.trans (h : SameUpToMonomials (Monomial.OfLength n) p₁ q₁ p₂ q₂)
    (h' : SameUpToMonomials (Monomial.OfLength n) p₂ q₂ p₃ q₃) :
    SameUpToMonomials (Monomial.OfLength n) p₁ q₁ p₃ q₃ := by
  obtain ⟨m₁, m₂, c, hm₁, hm₂, hc, hp, hq⟩ := h
  obtain ⟨k₂, k₃, d, hk₂, hk₃, hd, hp', hq'⟩ := h'
  have hproduct {m k : Monomial} (hm : m.length = n) (hk : k.length = n) :
      (m.product k).length = n := by
    rw [Monomial.product, List.length_zipWith, hm, hk, Nat.min_self]
  refine ⟨m₁.product k₂, m₂.product k₃, c * d, hproduct hm₁ hk₂, hproduct hm₂ hk₃,
    mul_ne_zero hc hd, ?_⟩
  rw [Monomial.exponents_product (hm₁.trans hk₂.symm),
    Monomial.exponents_product (hm₂.trans hk₃.symm)]
  exact ⟨MonomialProducts.trans hp hp', MonomialProducts.trans hq hq'⟩

namespace Identified

theorem mono {M' : Monomial → Prop} (hM : ∀ m, M m → M' m) (h : Identified n M p₁ q₁ p₂ q₂) :
    Identified n M' p₁ q₁ p₂ q₂ := by
  cases h with
  | zero h₁ h₂ => exact .zero h₁ h₂
  | multiple hr h₁ h₂ => exact .multiple hr h₁ h₂
  | monomials h => exact .monomials (h.mono hM)

/-- The ratio 0 is that of the fractions that are 0. -/
theorem of_multiple (hq₁ : q₁.WellFormed n) (hq₂ : q₂.WellFormed n) (h₁ : p₁ = q₁.scale r)
    (h₂ : p₂ = q₂.scale r) : Identified n M p₁ q₁ p₂ q₂ := by
  by_cases hr : r = 0
  · rw [hr, Polynomial.scale_zero, hq₁.numVars] at h₁
    rw [hr, Polynomial.scale_zero, hq₂.numVars] at h₂
    exact .zero h₁ h₂
  · exact .multiple hr h₁ h₂

/-- There are two kinds of identified fractions. -/
theorem cases (hq₁ : q₁.WellFormed n) (hq₂ : q₂.WellFormed n)
    (h : Identified n M p₁ q₁ p₂ q₂) :
    (∃ r, p₁ = q₁.scale r ∧ p₂ = q₂.scale r) ∨ SameUpToMonomials M p₁ q₁ p₂ q₂ := by
  cases h with
  | zero h₁ h₂ =>
    -- 0 is the multiple by 0
    refine Or.inl ⟨0, ?_, ?_⟩
    · rw [Polynomial.scale_zero, hq₁.numVars, h₁]
    · rw [Polynomial.scale_zero, hq₂.numVars, h₂]
  | multiple hr h₁ h₂ => exact Or.inl ⟨_, h₁, h₂⟩
  | monomials h => exact Or.inr h

/-- **The relation is symmetric.** -/
theorem symm (h : Identified n M p₁ q₁ p₂ q₂) : Identified n M p₂ q₂ p₁ q₁ := by
  cases h with
  | zero h₁ h₂ => exact .zero h₂ h₁
  | multiple hr h₁ h₂ => exact .multiple hr h₂ h₁
  | monomials h => exact .monomials h.symm

/-- The reciprocals of fractions other than 0 that are identified. -/
theorem flip (h : Identified n M p₁ q₁ p₂ q₂) (hp₁ : p₁ ≠ .zero n) :
    Identified n M q₁ p₁ q₂ p₂ := by
  cases h with
  | zero h₁ => exact absurd h₁ hp₁
  | @multiple r hr h₁ h₂ =>
    have hinv (q : Polynomial) : q = (q.scale r).scale r⁻¹ := by
      rw [Polynomial.scale_scale, mul_inv_cancel₀ hr, Polynomial.scale_one]
    exact .multiple (inv_ne_zero hr) (h₁ ▸ hinv q₁) (h₂ ▸ hinv q₂)
  | monomials h => exact .monomials h.flip

/-- The opposites of fractions that are identified. -/
theorem neg (h : Identified n M p₁ q₁ p₂ q₂) : Identified n M p₁.neg q₁ p₂.neg q₂ := by
  cases h with
  | zero h₁ h₂ => exact .zero (h₁ ▸ Polynomial.neg_zero n) (h₂ ▸ Polynomial.neg_zero n)
  | @multiple r hr h₁ h₂ =>
    have hneg (q : Polynomial) : (q.scale r).neg = q.scale (-r) := by
      rw [Polynomial.neg_eq_scale, Polynomial.scale_scale, mul_neg_one]
    exact .multiple (neg_ne_zero.mpr hr) (h₁ ▸ hneg q₁) (h₂ ▸ hneg q₂)
  | monomials h =>
    obtain ⟨m₁, m₂, c, hm₁, hm₂, hc, hp, hq⟩ := h
    refine .monomials ⟨m₁, m₂, c, hm₁, hm₂, hc, ?_, hq⟩
    rw [Polynomial.toMvPolynomial_neg, Polynomial.toMvPolynomial_neg, mul_neg, mul_neg, hp]

/-- A sign can be taken from the denominator to the numerator. -/
theorem signs (n : ℕ) (p q : Polynomial) :
    Identified n (Monomial.OfLength n) p q.neg p.neg q := by
  have h := SameUpToMonomials.scale_inv n p q.neg (neg_ne_zero.mpr (one_ne_zero (α := ℚ)))
  rw [inv_neg_one, ← Polynomial.neg_eq_scale, ← Polynomial.neg_eq_scale, Polynomial.neg_neg] at h
  exact .monomials h

end Identified

/-! ## Multiples -/

theorem toMvPolynomial_ne_zero (hq : q.WellFormed n) (hq0 : q.isZero = false) :
    q.toMvPolynomial ≠ 0 := by
  rw [Ne, hq.toMvPolynomial_eq_zero_iff, hq0]
  exact Bool.false_ne_true

/-- A polynomial other than 0 has different multiples. -/
theorem scale_injective (hq : q.WellFormed n) (hq0 : q.isZero = false) :
    Function.Injective q.scale := by
  intro r r' h
  have hring := congrArg Polynomial.toMvPolynomial h
  rw [Polynomial.toMvPolynomial_scale, Polynomial.toMvPolynomial_scale] at hring
  exact MvPolynomial.C_injective _ _ (mul_right_cancel₀ (toMvPolynomial_ne_zero hq hq0) hring)

/-- A fraction that is the same up to monomials as a constant is this constant. -/
theorem SameUpToMonomials.eq_scale (h : SameUpToMonomials M p₁ q₁ p₂ q₂) (hp₂ : p₂.WellFormed n)
    (hq₂ : q₂.WellFormed n) (h₁ : p₁ = q₁.scale r) : p₂ = q₂.scale r := by
  obtain ⟨m₁, m₂, c, -, -, hc, hp, hq⟩ := h
  refine hp₂.eq_of_toMvPolynomial_eq (hq₂.scale r) ?_
  -- the ring has no zero divisors, so a monomial can be put in front of both sides
  refine mul_left_cancel₀ (MonomialProducts.ne_zero m₁.exponents hc) ?_
  calc monomial m₁.exponents c * p₂.toMvPolynomial
      = monomial m₂.exponents 1 * (C r * q₁.toMvPolynomial) := by
        rw [← hp, h₁, Polynomial.toMvPolynomial_scale]
    _ = C r * (monomial m₁.exponents c * q₂.toMvPolynomial) := by
        rw [← hq]
        ring
    _ = monomial m₁.exponents c * (q₂.scale r).toMvPolynomial := by
        rw [Polynomial.toMvPolynomial_scale]
        ring

/-- **The relation is transitive** for fractions whose denominators are not 0. -/
theorem Identified.trans (h : Identified n (Monomial.OfLength n) p₁ q₁ p₂ q₂)
    (h' : Identified n (Monomial.OfLength n) p₂ q₂ p₃ q₃)
    (hp₁ : p₁.WellFormed n) (hq₁ : q₁.WellFormed n) (hq₂ : q₂.WellFormed n)
    (hp₃ : p₃.WellFormed n) (hq₃ : q₃.WellFormed n) (hq₂0 : q₂.isZero = false) :
    Identified n (Monomial.OfLength n) p₁ q₁ p₃ q₃ := by
  rcases h.cases hq₁ hq₂ with ⟨r, h₁, h₂⟩ | h <;>
    rcases h'.cases hq₂ hq₃ with ⟨r', h₂', h₃⟩ | h'
  · -- the constant is that of the fraction in the middle
    have hrr' : r = r' := scale_injective hq₂ hq₂0 (h₂.symm.trans h₂')
    exact .of_multiple hq₁ hq₃ h₁ (hrr' ▸ h₃)
  · exact .of_multiple hq₁ hq₃ h₁ (h'.eq_scale hp₃ hq₃ h₂)
  · exact .of_multiple hq₁ hq₃ (h.symm.eq_scale hp₁ hq₁ h₂') h₃
  · exact .monomials (h.trans h')

/-! ## Exponents in range -/

/-- A monomial without a parameter of the other one divides a term, so its exponents are in
range. -/
theorem wellFormed_of_disjoint {m k : Monomial} {c : ℚ} {Q : MvPolynomial ℕ ℚ}
    (hq : q.WellFormed n) (hq0 : q.isZero = false) (hm : m.length = n)
    (hdisjoint : ∀ i, m.getD i 0 = 0 ∨ k.getD i 0 = 0)
    (h : monomial k.exponents 1 * q.toMvPolynomial = monomial m.exponents c * Q) :
    m.WellFormed n := by
  obtain ⟨t, ht⟩ := Polynomial.exists_mem_terms hq0
  refine ⟨hm, Monomial.forall_mem_le_iff.mpr fun i => ?_⟩
  -- `m` divides `k` times each of the terms
  have hle := MonomialProducts.le_add_exponents hq h ht i
  have hmax := Monomial.forall_mem_le_iff.mp (hq.monomial t ht).le_max i
  rw [Finsupp.add_apply, Monomial.exponents_apply, Monomial.exponents_apply,
    Monomial.exponents_apply] at hle
  rcases hdisjoint i with h0 | h0 <;> omega

/-- **Exponents in range are enough**: what is common to the two monomials can be left out. -/
theorem Identified.inRange (h : Identified n (Monomial.OfLength n) p₁ q₁ p₂ q₂)
    (hq₁ : q₁.WellFormed n) (hq₂ : q₂.WellFormed n) (hq₁0 : q₁.isZero = false)
    (hq₂0 : q₂.isZero = false) : Identified n (Monomial.WellFormed n) p₁ q₁ p₂ q₂ := by
  cases h with
  | zero h₁ h₂ => exact .zero h₁ h₂
  | multiple hr h₁ h₂ => exact .multiple hr h₁ h₂
  | monomials h =>
    obtain ⟨m₁, m₂, c, hm₁, hm₂, hc, hp, hq⟩ := h
    have hlen : (m₁.gcd m₂).length = n := (Monomial.length_gcd (hm₁.trans hm₂.symm)).trans hm₁
    obtain ⟨hdiv₁, hdiv₂⟩ := m₁.gcd_divides m₂
    -- the greatest common divisor of the monomials can be left out on both sides
    rw [← Monomial.exponents_quotient_add (hm₁.trans hlen.symm) hdiv₁,
      ← Monomial.exponents_quotient_add (hm₂.trans hlen.symm) hdiv₂] at hp hq
    have hp' := MonomialProducts.of_add hp
    have hq' := MonomialProducts.of_add hq
    have hdisjoint := Monomial.disjoint_quotient_gcd (hm₁.trans hm₂.symm)
    have hlen' {m : Monomial} (hm : m.length = n) : (m.quotient (m₁.gcd m₂)).length = n := by
      rw [Monomial.length_quotient (hm.trans hlen.symm), hlen]
    exact .monomials ⟨m₁.quotient (m₁.gcd m₂), m₂.quotient (m₁.gcd m₂), c,
      wellFormed_of_disjoint hq₁ hq₁0 (hlen' hm₁) hdisjoint hq',
      wellFormed_of_disjoint hq₂ hq₂0 (hlen' hm₂) (fun i => (hdisjoint i).symm)
        (MonomialProducts.symm hc hq'), hc, hp', hq'⟩

end

end FunctionCache
