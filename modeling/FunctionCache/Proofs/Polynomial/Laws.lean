import FunctionCache.Proofs.Polynomial.Extremes

/-!
# The laws of polynomials

Well-formed polynomials in the same parameters obey the laws of a commutative
ring as they are represented, not only up to their values. Since products can
overflow, a law of products says which outcomes are the same. Evaluation at a
point takes the operations to those of numbers.

* `Polynomial.WellFormed.mul_assoc` — how a product of three is grouped makes no
  difference once the product of the first two and that of the last two succeed;
* `Polynomial.WellFormed.mul_add` — a product with a sum does not overflow if the
  products with the summands do not;
* `Polynomial.RingLaws`, `WellFormed.obey_ring_laws` — all laws together;
* `Polynomial.EvaluationIsHom`, `WellFormed.evaluation_isHom` — values.
-/

namespace FunctionCache

/-- The monomial of a variable in the ring. -/
theorem Monomial.exponents_var {n i : ℕ} (hi : i < n) :
    (var n i).exponents = Finsupp.single i 1 := by
  have hlength : (one n).length = n := (wellFormed_one n).length
  ext j
  rw [exponents_apply, var, List.getD_eq_getElem?_getD, List.getElem?_set]
  -- the exponent that is set, one beyond the end, and the others
  split_ifs with hij hlt
  · rw [hij, Finsupp.single_eq_same]
    rfl
  · exact absurd (hlength.symm ▸ hi) hlt
  · rw [← List.getD_eq_getElem?_getD, Finsupp.single_eq_of_ne (Ne.symm hij)]
    exact isOne_iff.mp (isOne_one n) j

namespace Polynomial

variable {n i : ℕ} {p q r s t p' q' : Polynomial} {c : ℚ}

/-! ## Sums -/

/-- Sums are associative, whatever the numbers of parameters. -/
theorem add_assoc (p q r : Polynomial) : (p.add q).add r = p.add (q.add r) := by
  refine ext_coeff ?_ fun k => ?_
  · rw [numVars_add, numVars_add, numVars_add]
  · rw [coeff_add, coeff_add, coeff_add, coeff_add, Rat.add_assoc]

/-- A summand can be taken away again. -/
theorem add_sub_cancel (p q : Polynomial) : (p.add q).sub q = p := by
  refine ext_coeff ?_ fun k => ?_
  · rw [sub, numVars_add, numVars_add]
  · rw [sub, coeff_add, coeff_add, coeff_neg, add_neg_cancel_right]

theorem WellFormed.zero_add (hp : p.WellFormed n) : (zero n).add p = p := by
  rw [add_comm hp.numVars.symm, add_zero]

theorem WellFormed.sub (hp : p.WellFormed n) (hq : q.WellFormed n) : (p.sub q).WellFormed n :=
  hp.add hq.neg

/-! ## Products -/

/-- Two products that fit alike and are equal in the ring have the same outcome. -/
theorem WellFormed.mul_eq_mul (hp : p.WellFormed n) (hq : q.WellFormed n) (hp' : p'.WellFormed n)
    (hq' : q'.WellFormed n) (hfits : p.Fits q ↔ p'.Fits q')
    (h : p.toMvPolynomial * q.toMvPolynomial = p'.toMvPolynomial * q'.toMvPolynomial) :
    p.mul q = p'.mul q' := by
  cases hmul : p'.mul q' with
  | ok r =>
    refine hp.mul_eq_ok hq (hp'.of_mul hq' hmul) (hfits.mpr (fits_of_mul hmul)) ?_
    rw [h, hp'.toMvPolynomial_of_mul hq' hmul]
  | error fault =>
    -- neither product can be computed, and there is only one fault
    obtain ⟨hnot, rfl⟩ := mul_eq_error_iff.mp hmul
    exact mul_eq_error_iff.mpr ⟨mt hfits.mp hnot, rfl⟩

/-- **The two ways to group three factors** overflow alike, since highest exponents add up. -/
theorem WellFormed.fits_mul_iff (hp : p.WellFormed n) (hq : q.WellFormed n) (hr : r.WellFormed n)
    (hs : p.mul q = .ok s) (ht : q.mul r = .ok t) : s.Fits r ↔ p.Fits t := by
  by_cases hzero : p = zero n ∨ q = zero n ∨ r = zero n
  · -- a factor 0 makes both products 0
    rcases hzero with rfl | rfl | rfl
    · cases hq.zero_mul.symm.trans hs
      exact iff_of_true ((fits_comm _ _).mp (fits_zero r n)) ((fits_comm _ _).mp (fits_zero t n))
    · cases hr.zero_mul.symm.trans ht
      cases (p.mul_zero n).symm.trans hs
      exact iff_of_true ((fits_comm _ _).mp (fits_zero r _)) (fits_zero p n)
    · cases (q.mul_zero n).symm.trans ht
      exact iff_of_true (fits_zero s n) (fits_zero p _)
  · simp only [not_or, ← hp.isZero_eq_false_iff, ← hq.isZero_eq_false_iff,
      ← hr.isZero_eq_false_iff] at hzero
    obtain ⟨hp0, hq0, hr0⟩ := hzero
    rw [(hp.of_mul hq hs).fits_iff hr, hp.fits_iff (hq.of_mul hr ht), Exceeds, Exceeds]
    simp only [hp.highest_of_mul hq hp0 hq0 hs, hq.highest_of_mul hr hq0 hr0 ht, Nat.add_assoc]

/-- **Products are associative**, with the same overflows. -/
theorem WellFormed.mul_assoc (hp : p.WellFormed n) (hq : q.WellFormed n) (hr : r.WellFormed n)
    (hs : p.mul q = .ok s) (ht : q.mul r = .ok t) : s.mul r = p.mul t := by
  refine (hp.of_mul hq hs).mul_eq_mul hr hp (hq.of_mul hr ht) (hp.fits_mul_iff hq hr hs ht) ?_
  rw [hp.toMvPolynomial_of_mul hq hs, hq.toMvPolynomial_of_mul hr ht]
  ring

/-- Every term of a sum has the monomial of a term of one summand. -/
theorem fits_add (hq : p.Fits q) (hr : p.Fits r) : p.Fits (q.add r) := by
  intro u hu v hv
  -- a term of the sum has a coefficient other than 0 in one of the summands
  have hne : q.coeff v.1 ≠ 0 ∨ r.coeff v.1 ≠ 0 := by
    have hv0 := (q.add r).nonzero v hv
    rw [← coeff_of_mem hv, coeff_add] at hv0
    by_contra hnot
    rw [not_or, not_not, not_not] at hnot
    rw [hnot.1, hnot.2, Rat.add_zero] at hv0
    exact hv0 rfl
  rcases hne with hne | hne
  · obtain ⟨w, hw, hwv⟩ := exists_of_coeff_ne_zero hne
    exact hwv ▸ hq u hu w hw
  · obtain ⟨w, hw, hwv⟩ := exists_of_coeff_ne_zero hne
    exact hwv ▸ hr u hu w hw

/-- **Products distribute over sums**, which overflow only if one of the summands does. -/
theorem WellFormed.mul_add (hp : p.WellFormed n) (hq : q.WellFormed n) (hr : r.WellFormed n)
    (hs : p.mul q = .ok s) (ht : p.mul r = .ok t) : p.mul (q.add r) = .ok (s.add t) := by
  refine hp.mul_eq_ok (hq.add hr) ((hp.of_mul hq hs).add (hp.of_mul hr ht))
    (fits_add (fits_of_mul hs) (fits_of_mul ht)) ?_
  rw [toMvPolynomial_add, toMvPolynomial_add, hp.toMvPolynomial_of_mul hq hs,
    hp.toMvPolynomial_of_mul hr ht]
  ring

/-- The laws of commutative rings for the polynomials `p`, `q` and `r` in `n` parameters. -/
structure RingLaws (n : ℕ) (p q r : Polynomial) : Prop where
  -- results
  wellFormed_add : (p.add q).WellFormed n
  wellFormed_sub : (p.sub q).WellFormed n
  wellFormed_neg : p.neg.WellFormed n
  wellFormed_scale (c : ℚ) : (p.scale c).WellFormed n
  wellFormed_mul {s : Polynomial} : p.mul q = .ok s → s.WellFormed n
  -- sums
  add_comm : p.add q = q.add p
  add_assoc : (p.add q).add r = p.add (q.add r)
  add_zero : p.add (zero n) = p
  zero_add : (zero n).add p = p
  sub_self : p.sub p = zero n
  add_sub_cancel : (p.add q).sub q = p
  -- products
  mul_comm : p.mul q = q.mul p
  eq_overflow {fault : Fault} : p.mul q = .error fault → fault = .exponentOverflow
  mul_one : p.mul (one n) = .ok p
  one_mul : (one n).mul p = .ok p
  /-- Both sides have one result or overflow. -/
  mul_assoc {s t : Polynomial} : p.mul q = .ok s → q.mul r = .ok t → s.mul r = p.mul t
  mul_add {s t : Polynomial} : p.mul q = .ok s → p.mul r = .ok t →
    p.mul (q.add r) = .ok (s.add t)
  mul_constant (c : ℚ) : p.mul (constant n c) = .ok (p.scale c)
  scale_zero : p.scale 0 = zero n

/-- **Well-formed polynomials obey the laws of commutative rings.** -/
theorem WellFormed.obey_ring_laws (hp : p.WellFormed n) (hq : q.WellFormed n)
    (hr : r.WellFormed n) : RingLaws n p q r where
  wellFormed_add := hp.add hq
  wellFormed_sub := hp.sub hq
  wellFormed_neg := hp.neg
  wellFormed_scale := hp.scale
  wellFormed_mul := hp.of_mul hq
  add_comm := Polynomial.add_comm (hp.numVars.trans hq.numVars.symm)
  add_assoc := Polynomial.add_assoc p q r
  add_zero := p.add_zero n
  zero_add := hp.zero_add
  sub_self := by rw [Polynomial.sub, p.add_neg, hp.numVars]
  add_sub_cancel := Polynomial.add_sub_cancel p q
  mul_comm := Polynomial.mul_comm (hp.numVars.trans hq.numVars.symm)
  eq_overflow := error_of_mul
  mul_one := hp.mul_one
  one_mul := by
    rw [Polynomial.mul_comm (p := Polynomial.one n) hp.numVars.symm, hp.mul_one]
  mul_assoc := hp.mul_assoc hq hr
  mul_add := hp.mul_add hq hr
  mul_constant := hp.mul_constant
  scale_zero := by rw [p.scale_zero, hp.numVars]

/-- The difference of two squares: the products of three factors are `x³ - xy²`. -/
theorem obey_ring_laws_of_squares :
    RingLaws 2 (.ofTerms 2 [([1, 0], 1), ([0, 1], 1)]) (.ofTerms 2 [([1, 0], 1), ([0, 1], -1)])
        (.ofTerms 2 [([1, 0], 1)]) ∧
      (ofTerms 2 [([1, 0], 1), ([0, 1], 1)]).mul (.ofTerms 2 [([1, 0], 1), ([0, 1], -1)]) =
        .ok (.ofTerms 2 [([2, 0], 1), ([0, 2], -1)]) ∧
      (ofTerms 2 [([1, 0], 1), ([0, 1], -1)]).mul (.ofTerms 2 [([1, 0], 1)]) =
        .ok (.ofTerms 2 [([2, 0], 1), ([1, 1], -1)]) := by
  refine ⟨WellFormed.obey_ring_laws (wellFormed_ofTerms ?_) (wellFormed_ofTerms ?_)
    (wellFormed_ofTerms ?_), ?_, ?_⟩ <;> decide +kernel

/-! ## Values -/

theorem evaluate_sub (p q : Polynomial) (point : List ℚ) :
    (p.sub q).evaluate point = p.evaluate point - q.evaluate point := by
  rw [sub, evaluate_add, evaluate_neg, sub_eq_add_neg]

theorem evaluate_scale (p : Polynomial) (c : ℚ) (point : List ℚ) :
    (p.scale c).evaluate point = c * p.evaluate point := by
  simp only [evaluate_eq, toMvPolynomial_scale, map_mul, MvPolynomial.eval_C]

/-- A parameter is one of the ring's. -/
theorem exists_var (hi : i < n) : ∃ v, var n i = .ok v ∧ v.toMvPolynomial = MvPolynomial.X i := by
  refine ⟨(zero n).addTerm (Monomial.var n i) 1, by rw [var, if_pos hi], ?_⟩
  rw [addTerm, toMvPolynomial, alter, Terms.toMvPolynomial_alter, Monomial.exponents_var hi]
  exact zero_add _

/-- Evaluation at a point with `n` coordinates as a map from the polynomials in `n` parameters to
the rational numbers. -/
structure EvaluationIsHom (n : ℕ) (point : List ℚ) (p q : Polynomial) : Prop where
  add : (p.add q).evaluate point = p.evaluate point + q.evaluate point
  sub : (p.sub q).evaluate point = p.evaluate point - q.evaluate point
  neg : p.neg.evaluate point = -p.evaluate point
  scale (c : ℚ) : (p.scale c).evaluate point = c * p.evaluate point
  mul {r : Polynomial} : p.mul q = .ok r →
    r.evaluate point = p.evaluate point * q.evaluate point
  constant (c : ℚ) : (Polynomial.constant n c).evaluate point = c
  var {i : ℕ} {x : ℚ} : point[i]? = some x →
    ∃ v, Polynomial.var n i = .ok v ∧ v.evaluate point = x

/-- **Evaluation at a point is a homomorphism of rings.** -/
theorem WellFormed.evaluation_isHom (hp : p.WellFormed n) (hq : q.WellFormed n) {point : List ℚ}
    (hpoint : point.length = n) : EvaluationIsHom n point p q where
  add := p.evaluate_add q point
  sub := p.evaluate_sub q point
  neg := p.evaluate_neg point
  scale c := p.evaluate_scale c point
  mul h := hp.evaluate_of_mul hq h point
  constant c := evaluate_constant n c point
  var {i x} hx := by
    obtain ⟨hi, rfl⟩ := List.getElem?_eq_some_iff.mp hx
    -- a variable reads its own coordinate
    obtain ⟨v, hv, hX⟩ := exists_var (hpoint ▸ hi)
    refine ⟨v, hv, ?_⟩
    rw [evaluate_eq, hX, MvPolynomial.eval_X, List.getD_eq_getElem _ _ hi]

/-- The values of `x + y`, `x - y` and their product where `x` is 0 and `y` is 1/2. -/
theorem evaluation_isHom_of_squares :
    EvaluationIsHom 2 [0, 1/2] (.ofTerms 2 [([1, 0], 1), ([0, 1], 1)])
        (.ofTerms 2 [([1, 0], 1), ([0, 1], -1)]) ∧
      (ofTerms 2 [([1, 0], 1), ([0, 1], 1)]).mul (.ofTerms 2 [([1, 0], 1), ([0, 1], -1)]) =
        .ok (.ofTerms 2 [([2, 0], 1), ([0, 2], -1)]) ∧
      (ofTerms 2 [([2, 0], 1), ([0, 2], -1)]).evaluate [0, 1/2] = -1/4 := by
  refine ⟨WellFormed.evaluation_isHom (wellFormed_ofTerms ?_) (wellFormed_ofTerms ?_) rfl,
    ?_, ?_⟩ <;> decide +kernel

end Polynomial

end FunctionCache
