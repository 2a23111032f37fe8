import FunctionCache.Proofs.Polynomial.Extremes
import FunctionCache.Proofs.RationalFunction.Division

/-!
# Exact quotients

Two quotients are taken while a fraction is brought into normal form: that of a
polynomial by a monomial that divides all of its terms, and that of two
polynomials which differ by a constant factor. Both are exact, and both are
found whenever they exist: multiplication gives the dividend back.

* `Polynomial.single` — a monomial as a polynomial;
* `Polynomial.WellFormed.mul_single` — the quotient times the monomial;
* `Polynomial.WellFormed.divideByMonomial_of_mul` — the quotient of a product;
* `Polynomial.DividesExactly`, `WellFormed.divides_exactly` — the content is the
  greatest monomial by which a polynomial can be divided;
* `Polynomial.DecidesRatio`, `WellFormed.decides_ratio` — constant ratios.
-/

namespace FunctionCache.Polynomial

variable {n : ℕ} {p q r : Polynomial} {m : Monomial} {c : ℚ}

/-! ## Monomials as polynomials -/

/-- The polynomial in `n` parameters with the one term `m`. -/
def single (n : ℕ) (m : Monomial) : Polynomial := ofTerms n [(m, 1)]

/-- One monomial makes one term, with the coefficient 1. -/
theorem terms_single (n : ℕ) (m : Monomial) : (single n m).terms = [(m, 1)] := by
  show Terms.consNonzero m (0 + 1) [] = [(m, 1)]
  rw [zero_add, Terms.consNonzero, if_neg one_ne_zero]

theorem isZero_single (n : ℕ) (m : Monomial) : (single n m).isZero = false := by
  rw [isZero, terms_single]
  rfl

theorem content_single (n : ℕ) (m : Monomial) : (single n m).content = m := by
  unfold content
  rw [terms_single]
  rfl

theorem wellFormed_single (hm : m.WellFormed n) : (single n m).WellFormed n :=
  wellFormed_ofTerms fun t ht => by rwa [List.mem_singleton.mp ht]

theorem toMvPolynomial_single (n : ℕ) (m : Monomial) :
    (single n m).toMvPolynomial = MvPolynomial.monomial m.exponents 1 := by
  simp [toMvPolynomial, terms_single]

/-- Multiplying with a single monomial is done term by term. -/
theorem fits_single_iff : p.Fits (single n m) ↔ ∀ t ∈ p.terms, t.1.Fits m := by
  simp only [Fits, terms_single, List.forall_mem_singleton]

/-! ## Quotients by a monomial -/

/-- The monomials that divide the content are the common divisors of all terms. -/
theorem divides_content_iff (hp0 : p.isZero = false) :
    m.Divides p.content ↔ ∀ t ∈ p.terms, m.Divides t.1 := by
  constructor
  · intro h t ht i
    exact (le_content_iff hp0).mp (h i) t ht
  · intro h i
    exact (le_content_iff hp0).mpr fun t ht => h t ht i

/-- A divisor of a term has its exponents in range. -/
theorem WellFormed.of_divides {t : Term} (hp : p.WellFormed n) (ht : t ∈ p.terms)
    (hm : m.length = n) (hdiv : m.Divides t.1) : m.WellFormed n where
  length := hm
  le_max := by
    rw [Monomial.forall_mem_le_iff]
    intro i
    exact (hdiv i).trans (Monomial.forall_mem_le_iff.mp (hp.monomial t ht).le_max i)

/-- **The quotient times the monomial** does not overflow and is the polynomial. -/
theorem WellFormed.mul_single (hp : p.WellFormed n) (hq : q.WellFormed n) (hm : m.WellFormed n)
    (hdiv : ∀ t ∈ p.terms, m.Divides t.1)
    (hterms : q.terms = p.terms.map fun t => (t.1.quotient m, t.2)) :
    q.mul (single n m) = .ok p := by
  have hlength (t : Term) (ht : t ∈ p.terms) : t.1.length = m.length :=
    (hp.monomial t ht).length.trans hm.length.symm
  -- the products of the quotients are the terms of `p`, which are in range
  have hfits : q.Fits (single n m) := by
    rw [fits_single_iff, hterms]
    intro s hs
    obtain ⟨t, ht, rfl⟩ := List.mem_map.mp hs
    rw [Monomial.Fits, Monomial.product_quotient (hlength t ht) (hdiv t ht)]
    exact (hp.monomial t ht).le_max
  refine hq.mul_eq_ok (wellFormed_single hm) hp hfits ?_
  rw [toMvPolynomial_single, hp.toMvPolynomial_eq_mul hm.length hdiv hterms]
  ring

/-- The quotient `q` of `p` by the monomial `m`. -/
structure MonomialQuotientOf (n : ℕ) (p : Polynomial) (m : Monomial) (q : Polynomial) : Prop where
  wellFormed : q.WellFormed n
  numTerms : q.numTerms = p.numTerms
  leadingCoeff : q.leadingCoeff? = p.leadingCoeff?
  /-- Multiplication does not overflow and gives `p` back. -/
  mul : q.mul (single n m) = .ok p
  content : q.content = p.content.quotient m

/-- **A divisor of the content** divides the polynomial. -/
theorem WellFormed.exists_monomialQuotient (hp : p.WellFormed n) (hp0 : p.isZero = false)
    (hm : m.length = n) (hdiv : m.Divides p.content) :
    ∃ q, p.divideByMonomial m = .ok q ∧ MonomialQuotientOf n p m q := by
  have hall := (divides_content_iff hp0).mp hdiv
  obtain ⟨q, hdivide, hq, hterms⟩ := divideByMonomial_eq hp hm hall
  obtain ⟨t, ht⟩ := exists_mem_terms hp0
  have hm' := hp.of_divides ht hm (hall t ht)
  have hmul := hp.mul_single hq hm' hall hterms
  have hq0 : q.isZero = false := isZero_of_divideByMonomial hp0 hdivide
  refine ⟨q, hdivide, hq, ?_, ?_, hmul, ?_⟩
  · rw [numTerms, hterms, List.length_map]
    rfl
  · rw [leadingCoeff?, hterms, List.getLast?_map, Option.map_map]
    rfl
  · -- the content of the product is that of the quotient times the monomial
    have hcontent := hq.content_of_mul (wellFormed_single hm') hq0 (isZero_single n m) hmul
    rw [hcontent, content_single, Monomial.quotient_product (hq.length_content.trans hm.symm)]

/-- A monomial that does not divide the content makes some difference of exponents negative. -/
theorem WellFormed.exists_error_iff (hp : p.WellFormed n) (hp0 : p.isZero = false)
    (hm : m.length = n) :
    (∃ fault, p.divideByMonomial m = .error fault) ↔ ¬m.Divides p.content := by
  have hcovers (t : Term) (ht : t ∈ p.terms) : t.1.Covers m ↔ m.Divides t.1 :=
    Monomial.covers_iff ((hp.monomial t ht).length.trans hm.symm)
  simp only [divideByMonomial_eq_error_iff, exists_and_left, exists_eq, and_true,
    divides_content_iff hp0, not_forall, exists_prop]
  exact exists_congr fun t => and_congr_right fun ht => not_congr (hcovers t ht)

/-- **Division undoes a multiplication** that did not overflow. -/
theorem WellFormed.divideByMonomial_of_mul (hp : p.WellFormed n) (hp0 : p.isZero = false)
    (hm : m.length = n) (h : p.mul (single n m) = .ok r) : r.divideByMonomial m = .ok p := by
  -- the exponents of `m` are in range, since they are even with those of a term added to them
  have hm' : m.WellFormed n := by
    obtain ⟨t, ht⟩ := exists_mem_terms hp0
    have hlength : t.1.length = m.length := (hp.monomial t ht).length.trans hm.symm
    have hfits := (Monomial.fits_iff hlength).mp (fits_single_iff.mp (fits_of_mul h) t ht)
    refine ⟨hm, Monomial.forall_mem_le_iff.mpr fun i => ?_⟩
    exact (Nat.le_add_left ..).trans (hfits i)
  have hs := wellFormed_single hm'
  have hr := hp.of_mul hs h
  have hr0 := hp.isZero_of_mul hs h hp0 (isZero_single n m)
  have hdiv : m.Divides r.content := by
    intro i
    rw [hp.content_of_mul hs hp0 (isZero_single n m) h, content_single,
      Monomial.getD_product (hp.length_content.trans hm.symm)]
    exact Nat.le_add_left ..
  obtain ⟨q, hdivide, hq⟩ := hr.exists_monomialQuotient hr0 hm hdiv
  -- both `p` and the quotient give `r` when they are multiplied by `m`
  have hcancel : q.toMvPolynomial = p.toMvPolynomial := by
    have hsingle : (single n m).toMvPolynomial ≠ 0 := by
      rw [Ne, hs.toMvPolynomial_eq_zero_iff, isZero_single]
      exact Bool.false_ne_true
    refine mul_right_cancel₀ hsingle ?_
    rw [← hq.wellFormed.toMvPolynomial_of_mul hs hq.mul, hp.toMvPolynomial_of_mul hs h]
  rw [hdivide, hq.wellFormed.eq_of_toMvPolynomial_eq hp hcancel]

/-- How the division of `p` by the monomial `m` comes out. -/
structure DividesExactly (n : ℕ) (p : Polynomial) (m : Monomial) : Prop where
  /-- It fails exactly if some exponent of `m` is larger than that of the content. -/
  underflow_iff : (∃ fault, p.divideByMonomial m = .error fault) ↔
    ¬∀ i < n, m.getD i 0 ≤ p.content.getD i 0
  message {fault : Fault} : p.divideByMonomial m = .error fault →
    fault.message = "attempt to subtract with overflow"
  quotient : (∀ i < n, m.getD i 0 ≤ p.content.getD i 0) →
    ∃ q, p.divideByMonomial m = .ok q ∧ MonomialQuotientOf n p m q
  of_mul {r : Polynomial} : p.mul (single n m) = .ok r → r.divideByMonomial m = .ok p

/-- **The content is the greatest monomial divisor**, and division by a monomial is exact. -/
theorem WellFormed.divides_exactly (hp : p.WellFormed n) (hp0 : p ≠ zero n) (hm : m.length = n) :
    DividesExactly n p m := by
  rw [← hp.isZero_eq_false_iff] at hp0
  -- beyond the last parameter there is no exponent to compare
  have hdivides : m.Divides p.content ↔ ∀ i < n, m.getD i 0 ≤ p.content.getD i 0 := by
    refine ⟨fun h i _ => h i, fun h i => ?_⟩
    rcases Nat.lt_or_ge i n with hi | hi
    · exact h i hi
    · rw [List.getD_eq_default _ _ (hm.trans_le hi)]
      exact Nat.zero_le _
  refine ⟨?_, fun {fault} h => ?_, fun h => ?_, fun h => ?_⟩
  · rw [hp.exists_error_iff hp0 hm, hdivides]
  · rw [(divideByMonomial_eq_error_iff.mp h).2]
    rfl
  · exact hp.exists_monomialQuotient hp0 hm (hdivides.mpr h)
  · exact hp.divideByMonomial_of_mul hp0 hm h

/-- The content of `x²y + xy³` is `xy`: the polynomial can be divided by it and not by `x²`. -/
theorem divides_exactly_by_content :
    DividesExactly 2 (.ofTerms 2 [([2, 1], 1), ([1, 3], 1)]) [1, 1] ∧
      (ofTerms 2 [([2, 1], 1), ([1, 3], 1)]).content = [1, 1] ∧
      (ofTerms 2 [([2, 1], 1), ([1, 3], 1)]).divideByMonomial [1, 1] =
        .ok (.ofTerms 2 [([1, 0], 1), ([0, 2], 1)]) ∧
      (ofTerms 2 [([2, 1], 1), ([1, 3], 1)]).divideByMonomial [2, 0] =
        .error .exponentUnderflow := by
  refine ⟨WellFormed.divides_exactly (wellFormed_ofTerms ?_) ?_ rfl, ?_, ?_, ?_⟩ <;>
    decide +kernel

/-! ## Constant ratios -/

/-- How the test for a constant ratio of `p` and `q` comes out. -/
structure DecidesRatio (n : ℕ) (p q : Polynomial) : Prop where
  eq_some_iff : p ≠ zero n → ∀ c, p.ratioTo? q = some c ↔ c ≠ 0 ∧ p = q.scale c
  eq_none_iff : p ≠ zero n → (p.ratioTo? q = none ↔ ¬∃ c, c ≠ 0 ∧ p = q.scale c)
  /-- The polynomial 0 has no ratio, not even to itself. -/
  zero : p = zero n → p.ratioTo? q = none
  /-- No coefficient is divided by 0. -/
  divisors (d : Division) : p.ratioToBy d q = .ok (p.ratioTo? q)

/-- **The ratio is found if there is one.** -/
theorem WellFormed.decides_ratio (hp : p.WellFormed n) (hq : q.WellFormed n) :
    DecidesRatio n p q := by
  have hnumVars : p.numVars = q.numVars := hp.numVars.trans hq.numVars.symm
  have hsome (hp0 : p ≠ Polynomial.zero n) (c : ℚ) :
      p.ratioTo? q = some c ↔ c ≠ 0 ∧ p = q.scale c := by
    rw [ratioTo?_eq_some_iff hnumVars, hp.isZero_eq_false_iff]
    constructor
    · rintro ⟨-, hpq⟩
      -- the ratio 0 would make `p` the polynomial 0
      refine ⟨?_, hpq⟩
      rintro rfl
      exact hp0 (by rw [hpq, scale_zero, hq.numVars])
    · exact fun h => ⟨hp0, h.2⟩
  refine ⟨hsome, fun hp0 => ?_, ?_, fun d => ratioToBy_eq d p q⟩
  · rw [Option.eq_none_iff_forall_ne_some, not_exists]
    exact forall_congr' fun c => not_congr (hsome hp0 c)
  · rintro rfl
    rfl

/-- The ratio of `3x + 3` to `x + 1` is 3, and `x` has none. -/
theorem decides_ratio_of_triple :
    DecidesRatio 1 (.ofTerms 1 [([0], 3), ([1], 3)]) (.ofTerms 1 [([0], 1), ([1], 1)]) ∧
      (ofTerms 1 [([0], 3), ([1], 3)]) ≠ .zero 1 ∧
      (ofTerms 1 [([0], 3), ([1], 3)]).ratioTo? (.ofTerms 1 [([0], 1), ([1], 1)]) = some 3 ∧
      (ofTerms 1 [([1], 1)]).ratioTo? (.ofTerms 1 [([0], 1), ([1], 1)]) = none := by
  refine ⟨WellFormed.decides_ratio (wellFormed_ofTerms ?_) (wellFormed_ofTerms ?_), ?_, ?_, ?_⟩ <;>
    decide +kernel

end FunctionCache.Polynomial
