import Mathlib.Algebra.MvPolynomial.Division
import Mathlib.Algebra.MvPolynomial.NoZeroDivisors
import Mathlib.RingTheory.Multiplicity
import FunctionCache.Proofs.Polynomial.Ring

/-!
# Extreme terms of products

Many pairs of terms can contribute to one term of a product and cancel each
other, but never all that have an extreme exponent. So the extremes of a product
are known from those of the factors alone.

* `Monomial.product_lt_or_eq` — products are in the order of their factors;
* `Polynomial.Leads`, `Polynomial.Leads.mul` — the largest monomials, which no
  other pair of terms gives;
* `Polynomial.WellFormed.highest_of_mul` — highest exponents are degrees, which
  add up since the ring has no zero divisors;
* `Polynomial.WellFormed.content_of_mul` — lowest exponents are powers of
  parameters that divide all terms, which add up since parameters are prime;
* `Polynomial.MultipliesExactly` — all of this together;
* `Polynomial.WellFormed.multiplies_exactly` — the result.
-/

namespace FunctionCache

namespace Monomial

variable {n : ℕ} {m m' k k' : Monomial}

/-! ## The order of products -/

/-- **Multiplying keeps the order** of monomials of one length. -/
theorem product_lt_product (hm : m.length = k.length) (hm' : m'.length = k.length)
    (hlt : m < m') : m.product k < m'.product k := by
  induction k generalizing m m' with
  | nil =>
    rw [List.length_eq_zero_iff.mp hm, List.length_eq_zero_iff.mp hm'] at hlt
    exact absurd hlt (List.lt_irrefl _)
  | cons e k ih =>
    cases m with
    | nil => cases hm
    | cons d m =>
      cases m' with
      | nil => cases hm'
      | cons d' m' =>
        show (d + e) :: product m k < (d' + e) :: product m' k
        -- adding the same exponent leaves the first difference where it is
        rw [List.cons_lt_cons_iff] at hlt ⊢
        rcases hlt with hdd | ⟨rfl, hlt⟩
        · exact Or.inl (Nat.add_lt_add_right hdd e)
        · exact Or.inr ⟨rfl, ih (Nat.succ.inj hm) (Nat.succ.inj hm') hlt⟩

/-- **Products are in the order of their factors**, and equal only for equal factors. -/
theorem product_lt_or_eq (hm : m.length = n) (hm' : m'.length = n) (hk : k.length = n)
    (hk' : k'.length = n) (hmm : m < m' ∨ m = m') (hkk : k < k' ∨ k = k') :
    m.product k < m'.product k' ∨ (m = m' ∧ k = k') := by
  rcases hmm with hmm | rfl
  · -- first the left factor grows, then the right one
    have hleft : m.product k < m'.product k :=
      product_lt_product (hm.trans hk.symm) (hm'.trans hk.symm) hmm
    rcases hkk with hkk | rfl
    · refine Or.inl (List.lt_trans hleft ?_)
      rw [product_comm m' k, product_comm m' k']
      exact product_lt_product (hk.trans hm'.symm) (hk'.trans hm'.symm) hkk
    · exact Or.inl hleft
  · rcases hkk with hkk | rfl
    · rw [product_comm m k, product_comm m k']
      exact Or.inl (product_lt_product (hk.trans hm.symm) (hk'.trans hm.symm) hkk)
    · exact Or.inr ⟨rfl, rfl⟩

end Monomial

namespace Polynomial

variable {n i b : ℕ} {p q r : Polynomial} {k l : Monomial} {c d : ℚ}

/-! ## Leading terms -/

/-- The largest monomial is `k` and has the coefficient `c`. -/
structure Leads (p : Polynomial) (k : Monomial) (c : ℚ) : Prop where
  coeff : p.coeff k = c
  ne_zero : c ≠ 0
  lt_or_eq : ∀ t ∈ p.terms, t.1 < k ∨ t.1 = k

theorem Leads.mem (h : p.Leads k c) : ∃ t ∈ p.terms, t.1 = k :=
  exists_of_coeff_ne_zero (h.coeff.trans_ne h.ne_zero)

/-- There is one leading coefficient. -/
theorem Leads.unique (h : p.Leads k c) (h' : p.Leads l d) : c = d := by
  obtain ⟨s, hs, rfl⟩ := h.mem
  obtain ⟨t, ht, rfl⟩ := h'.mem
  -- each of the two monomials is at least the other
  have hst : s.1 = t.1 := by
    rcases h.lt_or_eq t ht with hlt | heq
    · exact (h'.lt_or_eq s hs).resolve_left (List.lt_asymm hlt)
    · exact heq.symm
  rw [← h.coeff, ← h'.coeff, hst]

/-- The last term leads. -/
theorem leadingCoeff?_eq_some_iff : p.leadingCoeff? = some c ↔ ∃ k, p.Leads k c := by
  -- the last term of a sorted list has the largest monomial
  have hlast {c : ℚ} (h : p.leadingCoeff? = some c) : ∃ k, p.Leads k c := by
    obtain ⟨t, ht, rfl⟩ := Option.map_eq_some_iff.mp h
    obtain ⟨ts, hts⟩ := List.getLast?_eq_some_iff.mp ht
    have hmem : t ∈ p.terms := List.mem_of_getLast? ht
    refine ⟨t.1, coeff_of_mem hmem, p.nonzero t hmem, fun s hs => ?_⟩
    have hsorted := p.sorted
    rw [Terms.Sorted, hts, List.pairwise_append] at hsorted
    rw [hts, List.mem_append, List.mem_singleton] at hs
    exact hs.imp (fun hs => hsorted.2.2 s hs t (List.mem_singleton_self t)) (congrArg Prod.fst)
  refine ⟨hlast, fun ⟨k, hk⟩ => ?_⟩
  cases hp : p.isZero with
  | true =>
    obtain ⟨t, ht, -⟩ := hk.mem
    rw [List.isEmpty_iff.mp hp] at ht
    cases ht
  | false =>
    obtain ⟨d, hd, -⟩ := exists_leadingCoeff hp
    obtain ⟨l, hl⟩ := hlast hd
    rw [hd, hk.unique hl]

/-- If one pair of monomials alone has the product `m`, nothing is added to its coefficient. -/
theorem weight_pairProducts_of_unique {m : Monomial}
    (h : ∀ s ∈ p.terms, ∀ t ∈ q.terms, s.1.product t.1 = m ↔ s.1 = k ∧ t.1 = l) :
    Terms.weight (pairProducts p q) m = p.coeff k * q.coeff l := by
  have hterm {s t : Term} (hs : s ∈ p.terms) (ht : t ∈ q.terms) :
      (if s.1.product t.1 = m then s.2 * t.2 else 0) =
        (if s.1 = k then s.2 else 0) * if t.1 = l then t.2 else 0 := by
    rw [ite_zero_mul_ite_zero]
    simp only [h s hs t ht]
  -- the sum over pairs is a product of two sums with one summand each
  calc Terms.weight (pairProducts p q) m
      = (p.terms.map fun s => (q.terms.map fun t =>
          (if s.1 = k then s.2 else 0) * if t.1 = l then t.2 else 0).sum).sum := by
        rw [weight_pairProducts]
        refine congrArg List.sum (List.map_congr_left fun s hs => congrArg List.sum ?_)
        exact List.map_congr_left fun t ht => hterm hs ht
    _ = Terms.weight p.terms k * Terms.weight q.terms l := by
        simp only [List.sum_map_mul_left, List.sum_map_mul_right, Terms.weight]
    _ = p.coeff k * q.coeff l := by
        rw [Terms.weight_eq_coeff p.sorted, Terms.weight_eq_coeff q.sorted]
        rfl

/-- **The largest monomial of a product** comes from the largest ones of the factors only. -/
theorem Leads.mul (hp : p.WellFormed n) (hq : q.WellFormed n) (hk : p.Leads k c)
    (hl : q.Leads l d) (h : p.mul q = .ok r) : r.Leads (k.product l) (c * d) := by
  have hklength : k.length = n := by
    obtain ⟨s, hs, rfl⟩ := hk.mem
    exact (hp.monomial s hs).length
  have hllength : l.length = n := by
    obtain ⟨t, ht, rfl⟩ := hl.mem
    exact (hq.monomial t ht).length
  have hpair (s : Term) (hs : s ∈ p.terms) (t : Term) (ht : t ∈ q.terms) :
      s.1.product t.1 < k.product l ∨ (s.1 = k ∧ t.1 = l) :=
    Monomial.product_lt_or_eq (hp.monomial s hs).length hklength (hq.monomial t ht).length
      hllength (hk.lt_or_eq s hs) (hl.lt_or_eq t ht)
  refine ⟨?_, mul_ne_zero hk.ne_zero hl.ne_zero, fun u hu => ?_⟩
  · rw [coeff_of_mul h, weight_pairProducts_of_unique (k := k) (l := l), hk.coeff, hl.coeff]
    intro s hs t ht
    constructor
    · exact fun heq => (hpair s hs t ht).resolve_left fun hlt => List.lt_irrefl _ (heq ▸ hlt)
    · rintro ⟨hsk, htl⟩
      rw [hsk, htl]
  · -- the monomial is the product of some pair
    have hne : Terms.weight (pairProducts p q) u.1 ≠ 0 := by
      rw [← coeff_of_mul h, coeff_of_mem hu]
      exact r.nonzero u hu
    obtain ⟨v, hv, hvu⟩ := Terms.exists_of_weight_ne_zero hne
    obtain ⟨s, hs, t, ht, rfl⟩ := mem_pairProducts hv
    rw [← hvu]
    exact (hpair s hs t ht).imp_right fun ⟨hsk, htl⟩ => by rw [hsk, htl]

/-! ## Highest exponents -/

/-- The highest exponent is the degree in the ring. -/
theorem WellFormed.highest_eq_degreeOf (hp : p.WellFormed n) (i : ℕ) :
    p.highest i = p.toMvPolynomial.degreeOf i := by
  refine eq_of_forall_ge_iff fun b => ?_
  rw [MvPolynomial.degreeOf_le_iff, hp.forall_mem_support (P := (· ≤ b))]
  exact Terms.highest_le_iff

/-- **Degrees add up**, because the ring has no zero divisors. -/
theorem WellFormed.highest_of_mul (hp : p.WellFormed n) (hq : q.WellFormed n)
    (hp0 : p.isZero = false) (hq0 : q.isZero = false) (h : p.mul q = .ok r) (i : ℕ) :
    r.highest i = p.highest i + q.highest i := by
  have hp' : p.toMvPolynomial ≠ 0 := by simp [hp.toMvPolynomial_eq_zero_iff, hp0]
  have hq' : q.toMvPolynomial ≠ 0 := by simp [hq.toMvPolynomial_eq_zero_iff, hq0]
  rw [(hp.of_mul hq h).highest_eq_degreeOf, hp.highest_eq_degreeOf, hq.highest_eq_degreeOf,
    hp.toMvPolynomial_of_mul hq h, MvPolynomial.degreeOf_mul_eq hp' hq']

/-! ## Contents -/

/-- A power of a parameter divides a polynomial exactly if it divides all terms. -/
theorem WellFormed.X_pow_dvd_iff (hp : p.WellFormed n) :
    MvPolynomial.X i ^ b ∣ p.toMvPolynomial ↔ ∀ t ∈ p.terms, b ≤ t.1.getD i 0 := by
  rw [MvPolynomial.X_pow_eq_monomial]
  constructor
  · -- the monomials of a multiple of the power contain it
    rintro ⟨Q, hQ⟩
    rw [← hp.forall_mem_support (P := (b ≤ ·))]
    intro d hd
    rw [MvPolynomial.mem_support_iff, hQ, MvPolynomial.coeff_monomial_mul'] at hd
    have hle : Finsupp.single i b ≤ d := by
      by_contra hle
      exact hd (if_neg hle)
    exact Finsupp.single_le_iff.mp hle
  · intro h
    -- every summand can be divided
    refine List.dvd_sum fun P hP => ?_
    obtain ⟨t, ht, rfl⟩ := List.mem_map.mp hP
    refine MvPolynomial.monomial_dvd_monomial.mpr ⟨Or.inr ?_, one_dvd _⟩
    rw [Finsupp.single_le_iff, Monomial.exponents_apply]
    exact h t ht

/-- An exponent of the content is the greatest lower bound of those of the terms. -/
theorem le_content_iff (hp0 : p.isZero = false) :
    b ≤ p.content.getD i 0 ↔ ∀ t ∈ p.terms, b ≤ t.1.getD i 0 := by
  constructor
  · exact fun h t ht => Nat.le_trans h (content_divides ht i)
  · intro h
    obtain ⟨t, ht, hti⟩ := exists_getD_eq_content hp0 i
    exact hti ▸ h t ht

/-- The exponents of the content are the multiplicities of the variables in the ring. -/
theorem WellFormed.emultiplicity_eq (hp : p.WellFormed n) (hp0 : p.isZero = false) (i : ℕ) :
    emultiplicity (MvPolynomial.X i) p.toMvPolynomial = p.content.getD i 0 := by
  rw [emultiplicity_eq_coe, hp.X_pow_dvd_iff, hp.X_pow_dvd_iff, ← le_content_iff hp0,
    ← le_content_iff hp0]
  exact ⟨Nat.le_refl _, Nat.not_succ_le_self _⟩

/-- **The content of a product** is the product of the contents. -/
theorem WellFormed.content_of_mul (hp : p.WellFormed n) (hq : q.WellFormed n)
    (hp0 : p.isZero = false) (hq0 : q.isZero = false) (h : p.mul q = .ok r) :
    r.content = p.content.product q.content := by
  have hr := hp.of_mul hq h
  have hr0 := hp.isZero_of_mul hq h hp0 hq0
  have hlength : p.content.length = q.content.length :=
    hp.length_content.trans hq.length_content.symm
  have hproduct : (p.content.product q.content).length = n := by
    rw [Monomial.product, List.length_zipWith, ← hlength, Nat.min_self, hp.length_content]
  refine Monomial.eq_of_exponents_eq (hr.length_content.trans hproduct.symm) ?_
  -- multiplicities of prime elements add up
  ext i
  rw [Monomial.exponents_product hlength, Finsupp.add_apply, Monomial.exponents_apply,
    Monomial.exponents_apply, Monomial.exponents_apply, ← ENat.natCast_inj, ENat.natCast_add,
    ← hr.emultiplicity_eq hr0, ← hp.emultiplicity_eq hp0, ← hq.emultiplicity_eq hq0,
    hp.toMvPolynomial_of_mul hq h, emultiplicity_mul MvPolynomial.X_prime]

/-! ## Products -/

/-- The product `r` of two polynomials other than 0: its extremes are those of the factors. -/
structure ProductOf (n : ℕ) (p q r : Polynomial) : Prop where
  wellFormed : r.WellFormed n
  ne_zero : r ≠ zero n
  leadingCoeff : ∃ c d, p.leadingCoeff? = some c ∧ q.leadingCoeff? = some d ∧
    r.leadingCoeff? = some (c * d)
  highest (i : ℕ) : r.highest i = p.highest i + q.highest i
  content : r.content = p.content.product q.content

/-- How the product of `p` and `q` comes out. -/
structure MultipliesExactly (n : ℕ) (p q : Polynomial) : Prop where
  /-- It fails exactly if, for some parameter, the highest exponents have too large a sum, whether
  or not the terms with this exponent would cancel. -/
  overflow_iff : (∃ fault, p.mul q = .error fault) ↔
    ∃ i < n, 2 ^ 32 - 1 < p.highest i + q.highest i
  message {fault : Fault} : p.mul q = .error fault →
    fault.message = "attempt to add with overflow"
  product : p ≠ zero n → q ≠ zero n → (∀ i < n, p.highest i + q.highest i ≤ 2 ^ 32 - 1) →
    ∃ r, p.mul q = .ok r ∧ ProductOf n p q r
  zero : p = zero n ∨ q = zero n → p.mul q = .ok (zero n)

/-- There are no exponents beyond the parameters. -/
theorem WellFormed.highest_of_le (hp : p.WellFormed n) (hi : n ≤ i) : p.highest i = 0 := by
  refine Nat.le_zero.mp (Terms.highest_le_iff.mpr fun t ht => ?_)
  rw [List.getD_eq_default _ _ ((hp.monomial t ht).length.trans_le hi)]

/-- Overflow is a question about finitely many parameters. -/
theorem WellFormed.exceeds_iff (hp : p.WellFormed n) (hq : q.WellFormed n) :
    p.Exceeds q ↔ ∃ i < n, 2 ^ 32 - 1 < p.highest i + q.highest i := by
  constructor
  · rintro ⟨i, hi⟩
    refine ⟨i, ?_, hi⟩
    by_contra hn
    rw [hp.highest_of_le (Nat.not_lt.mp hn), hq.highest_of_le (Nat.not_lt.mp hn)] at hi
    cases hi
  · rintro ⟨i, -, hi⟩
    exact ⟨i, hi⟩

/-- What is known of a product that was computed. -/
theorem WellFormed.productOf (hp : p.WellFormed n) (hq : q.WellFormed n)
    (hp0 : p.isZero = false) (hq0 : q.isZero = false) (h : p.mul q = .ok r) :
    ProductOf n p q r where
  wellFormed := hp.of_mul hq h
  ne_zero := (hp.of_mul hq h).isZero_eq_false_iff.mp (hp.isZero_of_mul hq h hp0 hq0)
  leadingCoeff := by
    obtain ⟨c, hc, -⟩ := exists_leadingCoeff hp0
    obtain ⟨d, hd, -⟩ := exists_leadingCoeff hq0
    obtain ⟨k, hk⟩ := leadingCoeff?_eq_some_iff.mp hc
    obtain ⟨l, hl⟩ := leadingCoeff?_eq_some_iff.mp hd
    exact ⟨c, d, hc, hd, leadingCoeff?_eq_some_iff.mpr ⟨_, hk.mul hp hq hl h⟩⟩
  highest := hp.highest_of_mul hq hp0 hq0 h
  content := hp.content_of_mul hq hp0 hq0 h

/-- **Products are exact**: they overflow when the highest exponents of a parameter do, and the
extremes of all others are those of the factors. -/
theorem WellFormed.multiplies_exactly (hp : p.WellFormed n) (hq : q.WellFormed n) :
    MultipliesExactly n p q := by
  have hexceeds := hp.exceeds_iff hq
  refine ⟨?_, fun {fault} h => ?_, fun hp0 hq0 hle => ?_, ?_⟩
  · rw [← hexceeds, ← not_iff_not, ← hp.fits_iff hq]
    simp only [mul_eq_error_iff, exists_and_left, exists_eq, and_true, not_not]
  · rw [error_of_mul h]
    rfl
  · have hfits : p.Fits q := by
      rw [hp.fits_iff hq, hexceeds]
      rintro ⟨i, hi, hlt⟩
      exact Nat.not_lt.mpr (hle i hi) hlt
    have hmul := mul_eq_ok_iff.mpr ⟨hfits, rfl⟩
    exact ⟨_, hmul, hp.productOf hq (hp.isZero_eq_false_iff.mpr hp0)
      (hq.isZero_eq_false_iff.mpr hq0) hmul⟩
  · -- a factor 0 has no terms to multiply
    rintro (rfl | rfl)
    · exact hq.zero_mul
    · rw [mul_zero, hp.numVars]

/-- The highest power of `x` times `y + 1` and `y - 1`: two of four pairs of terms cancel, and there
is no room for another factor `x`. -/
theorem multiplies_exactly_up_to_bound :
    MultipliesExactly 2 (.ofTerms 2 [([4294967295, 0], 1), ([4294967295, 1], 1)])
        (.ofTerms 2 [([0, 0], -1), ([0, 1], 1)]) ∧
      (ofTerms 2 [([4294967295, 0], 1), ([4294967295, 1], 1)]).mul
        (.ofTerms 2 [([0, 0], -1), ([0, 1], 1)]) =
          .ok (.ofTerms 2 [([4294967295, 0], -1), ([4294967295, 2], 1)]) ∧
      (ofTerms 2 [([4294967295, 0], 1), ([4294967295, 1], 1)]).mul
        (.ofTerms 2 [([1, 0], -1), ([1, 1], 1)]) = .error .exponentOverflow := by
  refine ⟨WellFormed.multiplies_exactly (wellFormed_ofTerms ?_) (wellFormed_ofTerms ?_), ?_, ?_⟩ <;>
    decide +kernel

end Polynomial

end FunctionCache
