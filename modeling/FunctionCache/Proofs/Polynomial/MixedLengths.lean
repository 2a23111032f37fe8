import Mathlib.Data.List.Induction
import Mathlib.Data.List.Lex
import Mathlib.Order.Bounds.Defs
import FunctionCache.Proofs.Polynomial.Ring

/-!
# Monomials of mixed lengths

No operation asks for one number of parameters, so monomials of several lengths
can meet in one polynomial. Where exponents are paired up to the end of the
shorter monomial, different monomials can become the same one. Each operation
has its own rule for the coefficients that meet there: a product adds them up
and drops the sum if it is 0, and a quotient by a monomial keeps the one that
came last, which is that of the largest monomial.

* `Polynomial.mem_terms_iff` — the terms are the coefficients other than 0;
* `Polynomial.coeff_ofEntries_map` — what overwriting in ascending order leaves;
* `Polynomial.coeff_of_divideByMonomial` — the coefficients of a quotient;
* `Polynomial.evaluate_eq_sum_prod` — the value, term by term;
* `Polynomial.ActsOnTerms`, `Polynomial.acts_on_terms` — all operations together.
-/

namespace FunctionCache

/-- The value of a monomial: powers are paired up to the end of the shorter list. -/
theorem Monomial.evaluate_eq_zipWith (point : List ℚ) (c : ℚ) (m : Monomial) :
    m.evaluate point c = c * (List.zipWith (· ^ ·) point m).prod := by
  induction point generalizing c m with
  | nil => simp [evaluate]
  | cons x point ih =>
    cases m with
    | nil => simp [evaluate]
    | cons e m =>
      -- the first power goes into the constant
      have hrest : evaluate (x :: point) c (e :: m) = evaluate point (c * x ^ e) m := rfl
      rw [hrest, ih, List.zipWith_cons_cons, List.prod_cons, mul_assoc]

namespace Polynomial

variable {n : ℕ} {p q r : Polynomial} {m k : Monomial}

/-! ## Terms and coefficients -/

/-- **The terms are the coefficients other than 0**, each with its monomial. -/
theorem mem_terms_iff {t : Term} : t ∈ p.terms ↔ p.coeff t.1 = t.2 ∧ t.2 ≠ 0 := by
  constructor
  · intro ht
    exact ⟨coeff_of_mem ht, p.nonzero t ht⟩
  · rintro ⟨hcoeff, hne⟩
    obtain ⟨s, hs, hst⟩ := exists_of_coeff_ne_zero (hcoeff.trans_ne hne)
    have hs2 : s.2 = t.2 := by rw [← coeff_of_mem hs, hst, hcoeff]
    rwa [Prod.ext hst hs2] at hs

/-- The monomials of the terms are those with a coefficient other than 0. -/
theorem coeff_ne_zero_iff {l : Monomial} : p.coeff l ≠ 0 ↔ ∃ t ∈ p.terms, t.1 = l := by
  constructor
  · exact exists_of_coeff_ne_zero
  · rintro ⟨t, ht, rfl⟩
    rw [coeff_of_mem ht]
    exact p.nonzero t ht

/-- The polynomial 0 has no other coefficients. -/
theorem isZero_iff_coeff : p.isZero = true ↔ ∀ k, p.coeff k = 0 := by
  rw [isZero, List.isEmpty_iff]
  constructor
  · intro hterms k
    rw [coeff, hterms, Terms.coeff_nil]
  · intro h
    refine List.eq_nil_iff_forall_not_mem.mpr fun t ht => ?_
    exact p.nonzero t ht (by rw [← coeff_of_mem ht, h])

/-! ## Quotients by a monomial -/

/-- Terms are entered in ascending order under monomials that `g` gives them. Under `k` stands the
coefficient of the largest term that has come there so far. -/
theorem coeff_ofEntries_map (n : ℕ) (g : Monomial → Monomial) (k : Monomial) {ts : List Term}
    (hs : Terms.Sorted ts) :
    (∃ t ∈ ts, g t.1 = k ∧ (∀ s ∈ ts, g s.1 = k → s.1 ≤ t.1) ∧
        (ofEntries n (ts.map fun t => (g t.1, t.2))).coeff k = t.2) ∨
      (∀ t ∈ ts, g t.1 ≠ k) ∧ (ofEntries n (ts.map fun t => (g t.1, t.2))).coeff k = 0 := by
  -- on the entries made so far, with the last one taken off
  induction ts using List.reverseRecOn with
  | nil => exact Or.inr ⟨by simp, rfl⟩
  | append_singleton ts t ih =>
    obtain ⟨hts, -, hlt⟩ := List.pairwise_append.mp hs
    have hstep : (ofEntries n ((ts ++ [t]).map fun t => (g t.1, t.2))).coeff k =
        if g t.1 = k then t.2 else (ofEntries n (ts.map fun t => (g t.1, t.2))).coeff k := by
      rw [List.map_append, List.map_singleton, ofEntries, List.foldl_concat, coeff_alter]
      rfl
    by_cases hk : g t.1 = k
    · -- the new entry replaces what was there, and its monomial is larger than all before
      rw [if_pos hk] at hstep
      have hmem : t ∈ ts ++ [t] := List.mem_append_right _ (List.mem_singleton_self t)
      refine Or.inl ⟨t, hmem, hk, List.forall_mem_append.mpr ⟨fun s hs _ => ?_, ?_⟩, hstep⟩
      · exact (hlt s hs t (List.mem_singleton_self t)).le
      · exact List.forall_mem_singleton.mpr fun _ => le_rfl
    · -- the new entry goes elsewhere
      rw [if_neg hk] at hstep
      rcases ih hts with ⟨s, hs, hsk, hmax, hcoeff⟩ | ⟨hnone, hcoeff⟩
      · refine Or.inl ⟨s, List.mem_append_left _ hs, hsk, List.forall_mem_append.mpr ⟨hmax, ?_⟩,
          hstep.trans hcoeff⟩
        exact List.forall_mem_singleton.mpr fun h => absurd h hk
      · refine Or.inr ⟨List.forall_mem_append.mpr ⟨hnone, ?_⟩, hstep.trans hcoeff⟩
        exact List.forall_mem_singleton.mpr hk

/-- The monomials of `p` that become `k` when exponents of `m` are subtracted. -/
def sources (p : Polynomial) (m k : Monomial) : Set Monomial :=
  {l | p.coeff l ≠ 0 ∧ l.quotient m = k}

/-- **The coefficients of a quotient** are those of the largest monomials that become the same. -/
theorem coeff_of_divideByMonomial (h : p.divideByMonomial m = .ok r) (k : Monomial) :
    (∃ l, IsGreatest (p.sources m k) l ∧ r.coeff k = p.coeff l) ∨
      p.sources m k = ∅ ∧ r.coeff k = 0 := by
  rw [(divideByMonomial_eq_ok_iff.mp h).2]
  rcases coeff_ofEntries_map p.numVars (·.quotient m) k p.sorted with
    ⟨t, ht, htk, hmax, hcoeff⟩ | ⟨hnone, hcoeff⟩
  · -- the last of the terms whose quotient is `k` keeps its coefficient
    refine Or.inl ⟨t.1, ⟨⟨coeff_ne_zero_iff.mpr ⟨t, ht, rfl⟩, htk⟩, ?_⟩, ?_⟩
    · rintro l ⟨hl, hlk⟩
      obtain ⟨s, hs, rfl⟩ := coeff_ne_zero_iff.mp hl
      exact hmax s hs hlk
    · rw [coeff_of_mem ht]
      exact hcoeff
  · -- no term has this quotient
    refine Or.inr ⟨Set.eq_empty_iff_forall_notMem.mpr ?_, hcoeff⟩
    rintro l ⟨hl, hlk⟩
    obtain ⟨s, hs, rfl⟩ := coeff_ne_zero_iff.mp hl
    exact hnone s hs hlk

/-! ## Values -/

/-- The value, with powers paired up to the end of the point or of the monomial. -/
theorem evaluate_eq_sum_prod (p : Polynomial) (point : List ℚ) :
    p.evaluate point =
      (p.terms.map fun t => t.2 * (List.zipWith (· ^ ·) point t.1).prod).sum := by
  rw [evaluate_eq_sum]
  simp only [Monomial.evaluate_eq_zipWith]

/-! ## All operations -/

/-- The polynomial has `n` parameters and the coefficients `f`. -/
structure HasCoeffs (r : Polynomial) (n : ℕ) (f : Monomial → ℚ) : Prop where
  numVars : r.numVars = n
  coeff (k : Monomial) : r.coeff k = f k

/-- What operations do to the terms of `p` and `q`, whatever the lengths of their monomials. -/
structure ActsOnTerms (p q : Polynomial) : Prop where
  /-- No term has the coefficient 0, and all other coefficients have a term. -/
  mem_terms_iff (t : Term) : t ∈ p.terms ↔ p.coeff t.1 = t.2 ∧ t.2 ≠ 0
  isZero_iff : p.isZero = true ↔ ∀ k, p.coeff k = 0
  evaluate (point : List ℚ) : p.evaluate point =
    (p.terms.map fun t => t.2 * (List.zipWith (· ^ ·) point t.1).prod).sum
  add : (p.add q).HasCoeffs p.numVars fun k => p.coeff k + q.coeff k
  sub : (p.sub q).HasCoeffs p.numVars fun k => p.coeff k - q.coeff k
  neg : p.neg.HasCoeffs p.numVars fun k => -p.coeff k
  scale (c : ℚ) : (p.scale c).HasCoeffs p.numVars fun k => p.coeff k * c
  /-- Of all pairs of terms, those whose exponents add up to `k` contribute to its coefficient. -/
  mul {r : Polynomial} : p.mul q = .ok r → r.HasCoeffs p.numVars fun k =>
    (p.terms.map fun s =>
      (q.terms.map fun t => if s.1.product t.1 = k then s.2 * t.2 else 0).sum).sum
  exists_mul_iff : (∃ r, p.mul q = .ok r) ↔
    ∀ s ∈ p.terms, ∀ t ∈ q.terms, ∀ e ∈ s.1.product t.1, e ≤ 2 ^ 32 - 1
  numVars_divide {m : Monomial} {r : Polynomial} : p.divideByMonomial m = .ok r →
    r.numVars = p.numVars
  /-- Of all terms that come to `k`, the one with the largest monomial keeps its coefficient. -/
  divide {m : Monomial} {r : Polynomial} : p.divideByMonomial m = .ok r → ∀ k : Monomial,
    (∃ l, IsGreatest (p.sources m k) l ∧ r.coeff k = p.coeff l) ∨
      p.sources m k = ∅ ∧ r.coeff k = 0
  exists_divide_iff (m : Monomial) : (∃ r, p.divideByMonomial m = .ok r) ↔
    ∀ t ∈ p.terms, ∀ e ∈ t.1.zip m, e.2 ≤ e.1

/-- **Operations act on the coefficients of single monomials**, of whatever lengths. -/
theorem acts_on_terms (p q : Polynomial) : ActsOnTerms p q where
  mem_terms_iff t := Polynomial.mem_terms_iff
  isZero_iff := isZero_iff_coeff
  evaluate := p.evaluate_eq_sum_prod
  add := ⟨numVars_add p q, coeff_add p q⟩
  sub := by
    refine ⟨numVars_add p q.neg, fun k => ?_⟩
    rw [Polynomial.sub, coeff_add, coeff_neg, sub_eq_add_neg]
  neg := ⟨numVars_neg p, coeff_neg p⟩
  scale c := ⟨numVars_scale p c, coeff_scale p c⟩
  mul {r} h := by
    refine ⟨numVars_of_mul h, fun k => ?_⟩
    rw [coeff_of_mul h, weight_pairProducts]
  -- a product is there exactly if all sums of exponents are in range
  exists_mul_iff := by
    simp only [mul_eq_ok_iff, exists_and_left, exists_eq, and_true]
    rfl
  numVars_divide := numVars_of_divideByMonomial
  divide := coeff_of_divideByMonomial
  exists_divide_iff m := by
    simp only [divideByMonomial_eq_ok_iff, exists_and_left, exists_eq, and_true]
    rfl

/-- Without all exponents, two monomials become the same: the larger one keeps its coefficient. -/
example : (ofTerms 2 [([1, 0], 3), ([0, 1], 5)]).divideByMonomial [] =
    .ok (ofTerms 2 [([], 3)]) := by
  decide +kernel

end Polynomial

end FunctionCache
