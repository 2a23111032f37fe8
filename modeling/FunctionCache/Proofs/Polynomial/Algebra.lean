import Mathlib.Algebra.MvPolynomial.Funext
import Mathlib.Data.List.ToFinsupp
import FunctionCache.Proofs.Polynomial.Constants
import FunctionCache.Proofs.Polynomial.Divisors

/-!
# Polynomials as elements of a ring

Every polynomial stands for an element of the ring of polynomials over the
rational numbers in parameters numbered from 0. What is known of this ring
carries over: it has no zero divisors, evaluation at a point respects sums and
products, and an element that vanishes everywhere is 0.

* `Polynomial.toMvPolynomial` — the element;
* `Polynomial.toMvPolynomial_add`, `toMvPolynomial_of_mul` — operations are those
  of the ring;
* `Polynomial.WellFormed.eq_of_toMvPolynomial_eq` — a well-formed polynomial is
  determined by its element;
* `Polynomial.evaluate_eq`, `WellFormed.eval_toMvPolynomial` — values at points;
* `Polynomial.WellFormed.isZero_of_mul` — products of nonzero polynomials.
-/

namespace FunctionCache

namespace Monomial

/-- The exponent of each parameter. -/
def exponents (m : Monomial) : ℕ →₀ ℕ := m.toFinsupp

/-- An exponent is found at its position, and beyond the end it is 0. -/
theorem exponents_apply (m : Monomial) (i : ℕ) : m.exponents i = m.getD i 0 :=
  List.toFinsupp_apply m i

/-- Monomials of one length are told apart by their exponents. -/
theorem eq_of_exponents_eq {m k : Monomial} (hlen : m.length = k.length)
    (h : m.exponents = k.exponents) : m = k := by
  -- without the length, exponents 0 at the end could not be seen
  refine List.ext_getElem hlen fun i hm hk => ?_
  have hi := DFunLike.congr_fun h i
  rwa [exponents_apply, exponents_apply, List.getD_eq_getElem _ _ hm,
    List.getD_eq_getElem _ _ hk] at hi

theorem exponents_one (n : ℕ) : (one n).exponents = 0 := by
  ext i
  rw [exponents_apply]
  exact isOne_iff.mp (isOne_one n) i

/-- Products add the exponents, if none is cut off by a shorter list. -/
theorem exponents_product {m k : Monomial} (hlen : m.length = k.length) :
    (m.product k).exponents = m.exponents + k.exponents := by
  ext i
  rw [Finsupp.add_apply, exponents_apply, exponents_apply, exponents_apply, getD_product hlen]

/-- What a division takes away can be added again. -/
theorem exponents_quotient_add {m k : Monomial} (hm : m.length = k.length) (hdiv : k.Divides m) :
    (m.quotient k).exponents + k.exponents = m.exponents := by
  rw [← exponents_product (length_quotient hm), product_quotient hm hdiv]

/-- Coordinates beyond the last exponent play no role, and powers of missing ones count as 1. -/
theorem evaluate_eq_prod (point : List ℚ) (c : ℚ) (m : Monomial) :
    m.evaluate point c = c * ∏ i ∈ Finset.range m.length, point.getD i 1 ^ m.getD i 0 := by
  induction m generalizing point c with
  | nil => simp [evaluate]
  | cons e m ih =>
    cases point with
    | nil => simp [evaluate]
    | cons x point =>
      -- the first power goes into the constant
      have hrest : evaluate (x :: point) c (e :: m) = evaluate point (c * x ^ e) m := rfl
      rw [hrest, ih, List.length_cons, Finset.prod_range_succ']
      simp only [List.getD_cons_zero, List.getD_cons_succ]
      ring

/-- The value of a monomial in the ring. -/
theorem eval_monomial_exponents (x : ℕ → ℚ) (c : ℚ) (m : Monomial) :
    MvPolynomial.eval x (MvPolynomial.monomial m.exponents c) =
      c * ∏ i ∈ Finset.range m.length, x i ^ m.getD i 0 := by
  have hsupport : m.exponents.support ⊆ Finset.range m.length := List.toFinsupp_support_subset m
  rw [MvPolynomial.eval_monomial,
    Finsupp.prod_of_support_subset _ hsupport _ fun i _ => pow_zero _]
  simp only [exponents_apply]

end Monomial

namespace Terms

/-- The sum of the terms. -/
noncomputable def toMvPolynomial (ts : List Term) : MvPolynomial ℕ ℚ :=
  (ts.map fun t => MvPolynomial.monomial t.1.exponents t.2).sum

@[simp] theorem toMvPolynomial_nil : toMvPolynomial [] = 0 := rfl

@[simp] theorem toMvPolynomial_cons (t : Term) (ts : List Term) :
    toMvPolynomial (t :: ts) =
      MvPolynomial.monomial t.1.exponents t.2 + toMvPolynomial ts := by
  simp [toMvPolynomial]

theorem toMvPolynomial_append (ts us : List Term) :
    toMvPolynomial (ts ++ us) = toMvPolynomial ts + toMvPolynomial us := by
  simp [toMvPolynomial]

/-- Leaving out a term with the coefficient 0 changes nothing in the ring. -/
theorem toMvPolynomial_consNonzero (m : Monomial) (c : ℚ) (ts : List Term) :
    toMvPolynomial (consNonzero m c ts) =
      MvPolynomial.monomial m.exponents c + toMvPolynomial ts := by
  unfold consNonzero
  split
  · rename_i hc
    rw [hc, MvPolynomial.monomial_zero, zero_add]
  · exact toMvPolynomial_cons ..

/-- Adding to a coefficient adds a monomial in the ring. -/
theorem toMvPolynomial_alter (ts : List Term) (m : Monomial) (c : ℚ) :
    toMvPolynomial (alter m (· + c) ts) =
      toMvPolynomial ts + MvPolynomial.monomial m.exponents c := by
  -- the term is put in front, merged with the first term, or looked for in the rest
  induction ts with
  | nil =>
    rw [alter, toMvPolynomial_consNonzero, zero_add, add_comm]
  | cons t ts ih =>
    unfold alter
    split
    · rw [toMvPolynomial_cons, toMvPolynomial_cons, ih, add_assoc]
    · split
      · -- both terms have the same monomial
        rename_i hm
        rw [toMvPolynomial_consNonzero, toMvPolynomial_cons, hm, map_add]
        ring
      · rw [toMvPolynomial_consNonzero, zero_add, add_comm]

/-- Multiplying all coefficients by a constant. -/
theorem toMvPolynomial_map_mul (ts : List Term) (c : ℚ) :
    toMvPolynomial (ts.map fun t => (t.1, t.2 * c)) = MvPolynomial.C c * toMvPolynomial ts := by
  induction ts with
  | nil => exact (mul_zero _).symm
  | cons t ts ih =>
    rw [List.map_cons, toMvPolynomial_cons, toMvPolynomial_cons, ih, mul_add,
      MvPolynomial.C_mul_monomial, mul_comm]

/-- Multiplying all terms by a term. -/
theorem toMvPolynomial_map_product {ts : List Term} {s : Term}
    (hlen : ∀ t ∈ ts, s.1.length = t.1.length) :
    toMvPolynomial (ts.map fun t => (s.1.product t.1, s.2 * t.2)) =
      MvPolynomial.monomial s.1.exponents s.2 * toMvPolynomial ts := by
  -- the exponents add up only if the monomials are equally long
  induction ts with
  | nil => exact (mul_zero _).symm
  | cons t ts ih =>
    obtain ⟨ht, hts⟩ := List.forall_mem_cons.mp hlen
    rw [List.map_cons, toMvPolynomial_cons, toMvPolynomial_cons, ih hts, mul_add,
      MvPolynomial.monomial_mul, Monomial.exponents_product ht]

/-- All pairs of terms: those of the first list one by one, each with the whole second list. -/
theorem toMvPolynomial_flatMap_product {ss ts : List Term}
    (hlen : ∀ s ∈ ss, ∀ t ∈ ts, s.1.length = t.1.length) :
    toMvPolynomial (ss.flatMap fun s => ts.map fun t => (s.1.product t.1, s.2 * t.2)) =
      toMvPolynomial ss * toMvPolynomial ts := by
  induction ss with
  | nil => exact (zero_mul _).symm
  | cons s ss ih =>
    obtain ⟨hs, hss⟩ := List.forall_mem_cons.mp hlen
    -- distributivity: the first term times all of `ts`, and then the rest
    rw [List.flatMap_cons, toMvPolynomial_append, ih hss, toMvPolynomial_map_product hs,
      toMvPolynomial_cons, add_mul]

/-- The coefficient of a monomial in the ring is its weight, if no monomial differs in length. -/
theorem coeff_toMvPolynomial {n : ℕ} {ts : List Term} (hts : ∀ t ∈ ts, t.1.length = n)
    {k : Monomial} (hk : k.length = n) :
    MvPolynomial.coeff k.exponents (toMvPolynomial ts) = weight ts k := by
  induction ts with
  | nil => rfl
  | cons t ts ih =>
    obtain ⟨ht, hts⟩ := List.forall_mem_cons.mp hts
    -- of one length, the monomials are equal if their exponents are
    have hiff : t.1.exponents = k.exponents ↔ t.1 = k :=
      ⟨Monomial.eq_of_exponents_eq (ht.trans hk.symm), congrArg _⟩
    rw [toMvPolynomial_cons, MvPolynomial.coeff_add, MvPolynomial.coeff_monomial, ih hts,
      weight_cons]
    simp only [hiff]

/-- Only exponents of terms have coefficients. -/
theorem exists_of_coeff_toMvPolynomial_ne_zero {ts : List Term} {d : ℕ →₀ ℕ}
    (h : MvPolynomial.coeff d (toMvPolynomial ts) ≠ 0) : ∃ t ∈ ts, t.1.exponents = d := by
  induction ts with
  | nil => exact absurd (MvPolynomial.coeff_zero d) h
  | cons t ts ih =>
    by_cases hd : t.1.exponents = d
    · exact ⟨t, List.mem_cons_self .., hd⟩
    · -- the first term contributes nothing, so the rest does
      rw [toMvPolynomial_cons, MvPolynomial.coeff_add, MvPolynomial.coeff_monomial, if_neg hd,
        zero_add] at h
      obtain ⟨s, hs, hsd⟩ := ih h
      exact ⟨s, List.mem_cons_of_mem _ hs, hsd⟩

/-- Values depend on as many coordinates as there are exponents. -/
theorem eval_toMvPolynomial_congr {n : ℕ} {ts : List Term} (hts : ∀ t ∈ ts, t.1.length = n)
    {x y : ℕ → ℚ} (h : ∀ i < n, x i = y i) :
    MvPolynomial.eval x (toMvPolynomial ts) = MvPolynomial.eval y (toMvPolynomial ts) := by
  induction ts with
  | nil => rfl
  | cons t ts ih =>
    obtain ⟨ht, hts⟩ := List.forall_mem_cons.mp hts
    -- a term reads the first `n` coordinates only
    have hprod : ∏ i ∈ Finset.range n, x i ^ t.1.getD i 0 =
        ∏ i ∈ Finset.range n, y i ^ t.1.getD i 0 :=
      Finset.prod_congr rfl fun i hi => by rw [h i (Finset.mem_range.mp hi)]
    rw [toMvPolynomial_cons, map_add, map_add, ih hts, Monomial.eval_monomial_exponents,
      Monomial.eval_monomial_exponents, ht, hprod]

end Terms

namespace Polynomial

variable {n : ℕ} {p q r : Polynomial}

/-- The polynomial as an element of a ring. -/
noncomputable def toMvPolynomial (p : Polynomial) : MvPolynomial ℕ ℚ :=
  Terms.toMvPolynomial p.terms

/-! ## Operations -/

@[simp] theorem toMvPolynomial_zero (n : ℕ) : (zero n).toMvPolynomial = 0 := rfl

/-- Terms that are added one by one add up in the ring. -/
theorem toMvPolynomial_foldl_addTerm (ts : List Term) (p : Polynomial) :
    (ts.foldl (fun sum t => sum.addTerm t.1 t.2) p).toMvPolynomial =
      p.toMvPolynomial + Terms.toMvPolynomial ts := by
  -- the sum so far changes from term to term
  induction ts generalizing p with
  | nil => exact (add_zero _).symm
  | cons t ts ih =>
    have hterm : (p.addTerm t.1 t.2).toMvPolynomial =
        p.toMvPolynomial + MvPolynomial.monomial t.1.exponents t.2 :=
      Terms.toMvPolynomial_alter ..
    rw [List.foldl_cons, ih, hterm, Terms.toMvPolynomial_cons, add_assoc]

/-- Constants are constants of the ring. -/
@[simp] theorem toMvPolynomial_constant (n : ℕ) (c : ℚ) :
    (constant n c).toMvPolynomial = MvPolynomial.C c := by
  rw [toMvPolynomial, terms_constant, Terms.toMvPolynomial_consNonzero, Monomial.exponents_one,
    Terms.toMvPolynomial_nil, add_zero]
  rfl

@[simp] theorem toMvPolynomial_one (n : ℕ) : (one n).toMvPolynomial = 1 := by
  rw [one, toMvPolynomial_constant, MvPolynomial.C_1]

/-- **Sums** of the ring. -/
@[simp] theorem toMvPolynomial_add (p q : Polynomial) :
    (p.add q).toMvPolynomial = p.toMvPolynomial + q.toMvPolynomial :=
  toMvPolynomial_foldl_addTerm q.terms p

/-- **Multiples** in the ring. -/
@[simp] theorem toMvPolynomial_scale (p : Polynomial) (c : ℚ) :
    (p.scale c).toMvPolynomial = MvPolynomial.C c * p.toMvPolynomial := by
  unfold scale
  split
  · -- the factor 0 leaves no terms
    rename_i hc
    rw [hc, MvPolynomial.C_0, zero_mul, toMvPolynomial_zero]
  · exact Terms.toMvPolynomial_map_mul ..

/-- Dividing by a constant leaves this constant as a factor. -/
theorem toMvPolynomial_scale_inv (p : Polynomial) {c : ℚ} (hc : c ≠ 0) :
    p.toMvPolynomial = MvPolynomial.C c * (p.scale c⁻¹).toMvPolynomial := by
  rw [toMvPolynomial_scale, ← mul_assoc, ← MvPolynomial.C_mul, mul_inv_cancel₀ hc,
    MvPolynomial.C_1, one_mul]

/-- **Opposites** in the ring. -/
@[simp] theorem toMvPolynomial_neg (p : Polynomial) :
    p.neg.toMvPolynomial = -p.toMvPolynomial := by
  rw [neg_eq_scale, toMvPolynomial_scale, map_neg, MvPolynomial.C_1, neg_one_mul]

/-- **A product that succeeds** is the product in the ring. -/
theorem WellFormed.toMvPolynomial_of_mul (hp : p.WellFormed n) (hq : q.WellFormed n)
    (h : p.mul q = .ok r) : r.toMvPolynomial = p.toMvPolynomial * q.toMvPolynomial := by
  rw [(mul_eq_ok_iff.mp h).2, ofTerms, toMvPolynomial_foldl_addTerm, toMvPolynomial_zero, zero_add]
  refine Terms.toMvPolynomial_flatMap_product fun s hs t ht => ?_
  rw [(hp.monomial s hs).length, (hq.monomial t ht).length]

/-- Division by a common divisor of the terms takes a factor away. -/
theorem WellFormed.toMvPolynomial_eq_mul (hp : p.WellFormed n) {m : Monomial} (hm : m.length = n)
    (hdiv : ∀ t ∈ p.terms, m.Divides t.1)
    (hq : q.terms = p.terms.map fun t => (t.1.quotient m, t.2)) :
    p.toMvPolynomial = MvPolynomial.monomial m.exponents 1 * q.toMvPolynomial := by
  have hlength (t : Term) (ht : t ∈ p.terms) : t.1.length = m.length :=
    (hp.monomial t ht).length.trans hm.symm
  -- multiplying the quotient by the term of `m` gives the terms back
  have hback : (q.terms.map fun t => (m.product t.1, 1 * t.2)) = p.terms := by
    rw [hq, List.map_map]
    refine (List.map_congr_left fun t ht => ?_).trans (List.map_id _)
    rw [Function.comp_apply, Monomial.product_comm,
      Monomial.product_quotient (hlength t ht) (hdiv t ht), one_mul]
    rfl
  rw [toMvPolynomial, ← hback]
  refine Terms.toMvPolynomial_map_product (s := (m, 1)) fun t ht => ?_
  rw [hq] at ht
  obtain ⟨s, hs, rfl⟩ := List.mem_map.mp ht
  exact (Monomial.length_quotient (hlength s hs)).symm

/-! ## Uniqueness -/

/-- The ring has the coefficients of the polynomial, for monomials of the right length. -/
theorem WellFormed.coeff_toMvPolynomial (hp : p.WellFormed n) {k : Monomial} (hk : k.length = n) :
    MvPolynomial.coeff k.exponents p.toMvPolynomial = p.coeff k := by
  rw [toMvPolynomial, Terms.coeff_toMvPolynomial (fun t ht => (hp.monomial t ht).length) hk,
    Terms.weight_eq_coeff p.sorted]
  rfl

theorem WellFormed.coeff_of_length_ne (hp : p.WellFormed n) {k : Monomial} (hk : k.length ≠ n) :
    p.coeff k = 0 :=
  Terms.coeff_eq_zero fun t ht htk => hk (htk ▸ (hp.monomial t ht).length)

/-- **A well-formed polynomial is determined by its element of the ring.** -/
theorem WellFormed.eq_of_toMvPolynomial_eq (hp : p.WellFormed n) (hq : q.WellFormed n)
    (h : p.toMvPolynomial = q.toMvPolynomial) : p = q := by
  refine ext_coeff (hp.numVars.trans hq.numVars.symm) fun k => ?_
  -- the ring does not know of monomials of other lengths, but neither polynomial has any
  by_cases hk : k.length = n
  · rw [← hp.coeff_toMvPolynomial hk, ← hq.coeff_toMvPolynomial hk, h]
  · rw [hp.coeff_of_length_ne hk, hq.coeff_of_length_ne hk]

/-- The ring has the monomials of the terms and no others. -/
theorem WellFormed.mem_support_iff (hp : p.WellFormed n) {d : ℕ →₀ ℕ} :
    d ∈ p.toMvPolynomial.support ↔ ∃ t ∈ p.terms, t.1.exponents = d := by
  rw [MvPolynomial.mem_support_iff]
  constructor
  · exact Terms.exists_of_coeff_toMvPolynomial_ne_zero
  · rintro ⟨t, ht, rfl⟩
    rw [hp.coeff_toMvPolynomial (hp.monomial t ht).length, coeff_of_mem ht]
    exact p.nonzero t ht

/-- What holds of the exponents of all terms holds of all exponents of the ring element. -/
theorem WellFormed.forall_mem_support (hp : p.WellFormed n) {P : ℕ → Prop} (i : ℕ) :
    (∀ d ∈ p.toMvPolynomial.support, P (d i)) ↔ ∀ t ∈ p.terms, P (t.1.getD i 0) := by
  simp only [hp.mem_support_iff, ← Monomial.exponents_apply]
  constructor
  · exact fun h t ht => h t.1.exponents ⟨t, ht, rfl⟩
  · rintro h d ⟨t, ht, rfl⟩
    exact h t ht

/-- Only the polynomial without terms is 0 in the ring. -/
theorem WellFormed.toMvPolynomial_eq_zero_iff (hp : p.WellFormed n) :
    p.toMvPolynomial = 0 ↔ p.isZero = true := by
  rw [hp.isZero_iff]
  constructor
  · intro h
    exact hp.eq_of_toMvPolynomial_eq (wellFormed_zero n) (h.trans (toMvPolynomial_zero n).symm)
  · rintro rfl
    rfl

/-! ## Values -/

/-- The value is the sum of the values of the terms. -/
theorem evaluate_eq_sum (p : Polynomial) (point : List ℚ) :
    p.evaluate point = (p.terms.map fun t => t.1.evaluate point t.2).sum := by
  rw [evaluate, List.sum_eq_foldl, List.foldl_map]

/-- **The value of a polynomial** is that of its element of the ring. -/
theorem evaluate_eq (p : Polynomial) (point : List ℚ) :
    p.evaluate point = MvPolynomial.eval (fun i => point.getD i 1) p.toMvPolynomial := by
  rw [evaluate_eq_sum, toMvPolynomial, Terms.toMvPolynomial, map_list_sum, List.map_map]
  refine congrArg List.sum (List.map_congr_left fun t _ => ?_)
  rw [Function.comp_apply, Monomial.eval_monomial_exponents, Monomial.evaluate_eq_prod]

/-- Evaluation passes to summands, because it is the evaluation of the ring. -/
@[simp] theorem evaluate_add (p q : Polynomial) (point : List ℚ) :
    (p.add q).evaluate point = p.evaluate point + q.evaluate point := by
  simp only [evaluate_eq, toMvPolynomial_add, map_add]

@[simp] theorem evaluate_neg (p : Polynomial) (point : List ℚ) :
    p.neg.evaluate point = -p.evaluate point := by
  simp only [evaluate_eq, toMvPolynomial_neg, map_neg]

@[simp] theorem evaluate_constant (n : ℕ) (c : ℚ) (point : List ℚ) :
    (constant n c).evaluate point = c := by
  rw [evaluate_eq, toMvPolynomial_constant, MvPolynomial.eval_C]

theorem WellFormed.evaluate_of_mul (hp : p.WellFormed n) (hq : q.WellFormed n)
    (h : p.mul q = .ok r) (point : List ℚ) :
    r.evaluate point = p.evaluate point * q.evaluate point := by
  simp only [evaluate_eq, hp.toMvPolynomial_of_mul hq h, map_mul]

/-- A product of polynomials other than 0 is not 0. -/
theorem WellFormed.isZero_of_mul (hp : p.WellFormed n) (hq : q.WellFormed n)
    (h : p.mul q = .ok r) (hp0 : p.isZero = false) (hq0 : q.isZero = false) :
    r.isZero = false := by
  by_contra hr
  rw [Bool.not_eq_false, ← (hp.of_mul hq h).toMvPolynomial_eq_zero_iff,
    hp.toMvPolynomial_of_mul hq h, mul_eq_zero, hp.toMvPolynomial_eq_zero_iff,
    hq.toMvPolynomial_eq_zero_iff, hp0, hq0] at hr
  simp at hr

/-- A polynomial with a value other than 0 is not 0. -/
theorem isZero_of_evaluate_ne_zero {point : List ℚ} (h : p.evaluate point ≠ 0) :
    p.isZero = false := by
  by_contra hp
  rw [Bool.not_eq_false, isZero, List.isEmpty_iff] at hp
  refine h ?_
  rw [evaluate, hp]
  rfl

/-- Only coordinates of parameters matter. -/
theorem WellFormed.eval_toMvPolynomial (hp : p.WellFormed n) (x : ℕ → ℚ) :
    MvPolynomial.eval x p.toMvPolynomial = p.evaluate ((List.range n).map x) := by
  rw [evaluate_eq]
  refine Terms.eval_toMvPolynomial_congr (fun t ht => (hp.monomial t ht).length) fun i hi => ?_
  have hlt : i < ((List.range n).map x).length := by simpa using hi
  rw [List.getD_eq_getElem _ _ hlt, List.getElem_map, List.getElem_range]

end Polynomial

end FunctionCache
