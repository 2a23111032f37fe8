import FunctionCache.Proofs.Computation
import FunctionCache.Proofs.Polynomial.Coefficients

/-!
# Products of polynomials

Multiplying monomials can leave the range of exponents, and then the whole
product of two polynomials is a fault, whichever pair of terms causes it. When
no pair does, the product is the sum of the products of all pairs of terms.

* `Monomial.product`, `Monomial.Fits` — the product without a bound on exponents,
  and whether it keeps within the bound;
* `Polynomial.mul_eq`, `mul_eq_ok_iff` — the product with its one way to fail;
* `Polynomial.mul_comm` — products fail in both orders or agree.
-/

namespace FunctionCache

namespace Monomial

/-- The product of two monomials with exponents of any size. -/
def product (m k : Monomial) : Monomial := List.zipWith (· + ·) m k

/-- The exponents of the product keep within their range. -/
def Fits (m k : Monomial) : Prop := ∀ e ∈ product m k, e ≤ maxExponent

instance (m k : Monomial) : Decidable (Fits m k) := inferInstanceAs (Decidable (∀ e ∈ _, _))

theorem product_comm (m k : Monomial) : product m k = product k m :=
  List.zipWith_comm_of_comm Nat.add_comm

theorem fits_comm (m k : Monomial) : Fits m k ↔ Fits k m := by
  rw [Fits, Fits, product_comm]

/-- **Multiplying monomials** fails exactly if a sum of exponents leaves the range. -/
theorem mul_eq (m k : Monomial) :
    m.mul k = if Fits m k then .ok (product m k) else .error .exponentOverflow := by
  induction m generalizing k with
  | nil => rfl
  | cons d m ih =>
    cases k with
    | nil => rfl
    | cons e k =>
      have hfits : Fits (d :: m) (e :: k) ↔ d + e ≤ maxExponent ∧ Fits m k := by
        simp [Fits, product]
      simp only [mul, addExponents, ih, hfits]
      -- the first exponent is looked at before the others, with the same fault
      by_cases hde : d + e ≤ maxExponent
      · by_cases hmk : Fits m k
        · simp [hde, hmk, bind, Except.bind, pure, Except.pure, product]
        · simp [hde, hmk, bind, Except.bind]
      · simp [hde, bind, Except.bind]

end Monomial

namespace Polynomial

/-- No product of a term of `p` and a term of `q` leaves the range of exponents. -/
def Fits (p q : Polynomial) : Prop := ∀ s ∈ p.terms, ∀ t ∈ q.terms, Monomial.Fits s.1 t.1

instance (p q : Polynomial) : Decidable (Fits p q) :=
  inferInstanceAs (Decidable (∀ s ∈ _, ∀ t ∈ _, _))

/-- The products of every term of `p` with every term of `q`, with exponents of any size. -/
def pairProducts (p q : Polynomial) : List Term :=
  p.terms.flatMap fun s => q.terms.map fun t => (s.1.product t.1, s.2 * t.2)

/-- Multiplying the terms succeeds exactly if all pairs can be multiplied. -/
theorem products_eq (p q : Polynomial) :
    p.products q = if Fits p q then .ok (pairProducts p q) else .error .exponentOverflow := by
  -- one pair
  have hstep : ∀ x : Term × Term, (do return (← x.1.1.mul x.2.1, x.1.2 * x.2.2)) =
      if Monomial.Fits x.1.1 x.2.1 then Except.ok (x.1.1.product x.2.1, x.1.2 * x.2.2)
      else .error Fault.exponentOverflow := by
    intro x
    rw [Monomial.mul_eq]
    split <;> rfl
  -- the list of pairs is built first, so its elements are the pairs of terms
  have hfits : (∀ x ∈ p.terms.flatMap fun s => q.terms.map fun t => (s, t),
      Monomial.Fits x.1.1 x.2.1) ↔ Fits p q := by
    simp only [List.mem_flatMap, List.mem_map, Fits]
    constructor
    · intro h s hs t ht
      exact h (s, t) ⟨s, hs, t, ht, rfl⟩
    · rintro h x ⟨s, hs, t, ht, rfl⟩
      exact h s hs t ht
  rw [products, Failing.mapM_ite hstep]
  simp only [hfits, pairProducts, List.map_flatMap, List.map_map, Function.comp_def]

/-- **A product fails when a pair of terms does not fit, and is the sum of all pairs otherwise.** -/
theorem mul_eq (p q : Polynomial) :
    p.mul q = if Fits p q then .ok (ofTerms p.numVars (pairProducts p q))
      else .error .exponentOverflow := by
  rw [mul, products_eq]
  split <;> rfl

/-- A product that can be computed is the sum of the products of terms. -/
theorem mul_eq_ok_iff {p q r : Polynomial} :
    p.mul q = .ok r ↔ Fits p q ∧ r = ofTerms p.numVars (pairProducts p q) := by
  rw [mul_eq]
  split
  · rename_i hfits
    exact ⟨fun h => ⟨hfits, (Except.ok.inj h).symm⟩, fun h => by rw [h.2]⟩
  · rename_i hfits
    exact ⟨fun h => (by cases h), fun h => absurd h.1 hfits⟩

/-- A product that cannot be computed has overflown. -/
theorem mul_eq_error_iff {p q : Polynomial} {e : Fault} :
    p.mul q = .error e ↔ ¬Fits p q ∧ e = .exponentOverflow := by
  rw [mul_eq]
  split
  · rename_i hfits
    exact ⟨fun h => (by cases h), fun h => absurd hfits h.1⟩
  · rename_i hfits
    exact ⟨fun h => ⟨hfits, (Except.error.inj h).symm⟩, fun h => by rw [h.2]⟩

theorem fits_of_mul {p q r : Polynomial} (h : p.mul q = .ok r) : Fits p q :=
  (mul_eq_ok_iff.mp h).1

/-- There is one fault that a product can end with. -/
theorem error_of_mul {p q : Polynomial} {e : Fault} (h : p.mul q = .error e) :
    e = .exponentOverflow :=
  (mul_eq_error_iff.mp h).2

theorem numVars_of_mul {p q r : Polynomial} (h : p.mul q = .ok r) : r.numVars = p.numVars := by
  rw [(mul_eq_ok_iff.mp h).2, numVars_ofTerms]

/-- **The coefficients of a product** are sums over all pairs of terms. -/
theorem coeff_of_mul {p q r : Polynomial} (h : p.mul q = .ok r) (k : Monomial) :
    r.coeff k = Terms.weight (pairProducts p q) k := by
  rw [(mul_eq_ok_iff.mp h).2, coeff_ofTerms]

/-- A product with 0 has no pair of terms that could fail. -/
theorem fits_zero (p : Polynomial) (n : Nat) : Fits p (zero n) := fun s _ t ht => by cases ht

/-- A product with 0 has no terms, so nothing can overflow. -/
theorem mul_zero (p : Polynomial) (n : Nat) : p.mul (zero n) = .ok (zero p.numVars) := by
  have hpairs : pairProducts p (zero n) = [] := by
    rw [pairProducts, List.flatMap_eq_nil_iff]
    exact fun s _ => rfl
  rw [mul_eq, if_pos (fits_zero p n), hpairs]
  rfl

/-- Whether two polynomials can be multiplied does not depend on their order. -/
theorem fits_comm (p q : Polynomial) : Fits p q ↔ Fits q p := by
  constructor
  · exact fun h s hs t ht => (Monomial.fits_comm t.1 s.1).mp (h t ht s hs)
  · exact fun h s hs t ht => (Monomial.fits_comm t.1 s.1).mp (h t ht s hs)

/-- The weight of all pairs as a sum over the terms of one factor and then of the other. -/
theorem weight_pairProducts (p q : Polynomial) (k : Monomial) :
    Terms.weight (pairProducts p q) k = (p.terms.map fun s =>
      (q.terms.map fun t => if s.1.product t.1 = k then s.2 * t.2 else 0).sum).sum := by
  rw [pairProducts]
  induction p.terms with
  | nil => rfl
  | cons s ss ih =>
    rw [List.flatMap_cons, Terms.weight_append, ih, List.map_cons, List.sum_cons]
    simp [Terms.weight, Function.comp_def]

/-- The coefficients of a product do not depend on the order of the factors. -/
theorem weight_pairProducts_comm (p q : Polynomial) (k : Monomial) :
    Terms.weight (pairProducts p q) k = Terms.weight (pairProducts q p) k := by
  -- exchange of the two sums over the terms
  have hswap := Multiset.sum_map_sum_map (↑p.terms : Multiset Term) (↑q.terms : Multiset Term)
    (f := fun s t => if s.1.product t.1 = k then s.2 * t.2 else 0)
  simp only [Multiset.map_coe, Multiset.sum_coe] at hswap
  rw [weight_pairProducts, weight_pairProducts, hswap]
  simp only [Monomial.product_comm, Rat.mul_comm]

/-- **Polynomials in the same number of parameters can be multiplied in either order**: both
products fail or both are the same. -/
theorem mul_comm {p q : Polynomial} (h : p.numVars = q.numVars) : p.mul q = q.mul p := by
  have hterms : ofTerms p.numVars (pairProducts p q) = ofTerms q.numVars (pairProducts q p) := by
    refine ext_coeff ?_ fun k => ?_
    · rw [numVars_ofTerms, numVars_ofTerms, h]
    · rw [coeff_ofTerms, coeff_ofTerms, weight_pairProducts_comm]
  rw [mul_eq, mul_eq, hterms]
  -- what is left is which pairs fit, and that is symmetric
  simp only [fits_comm]

end Polynomial

end FunctionCache
