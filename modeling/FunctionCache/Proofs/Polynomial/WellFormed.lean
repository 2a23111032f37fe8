import FunctionCache.Proofs.Polynomial.Products

/-!
# Well-formed polynomials

No operation asks for it, but the polynomials that are used have monomials with
one exponent for each parameter, and exponents that a product left in range.
Every operation on such polynomials makes one of them, since it alters
coefficients of well-formed monomials only. Products of polynomials whose
exponents are at most half of the largest one do not overflow.
-/

namespace FunctionCache

namespace Monomial

/-- One exponent in range for each of `n` parameters. -/
structure WellFormed (n : Nat) (m : Monomial) : Prop where
  length : m.length = n
  le_max : ∀ e ∈ m, e ≤ maxExponent

instance (n : Nat) (m : Monomial) : Decidable (m.WellFormed n) :=
  decidable_of_iff (m.length = n ∧ ∀ e ∈ m, e ≤ maxExponent)
    ⟨fun h => ⟨h.1, h.2⟩, fun h => ⟨h.length, h.le_max⟩⟩

theorem wellFormed_one (n : Nat) : (one n).WellFormed n where
  length := List.length_replicate
  le_max e he := by
    rw [List.eq_of_mem_replicate he]
    exact Nat.zero_le _

/-- The monomial of a variable has the exponent 1 once, and 0 otherwise. -/
theorem wellFormed_var (n i : Nat) : (var n i).WellFormed n where
  length := by rw [var, List.length_set, (wellFormed_one n).length]
  le_max e he := by
    rcases List.mem_or_eq_of_mem_set he with he | rfl
    · exact (wellFormed_one n).le_max e he
    · decide

/-- A product of monomials is well-formed unless an exponent leaves its range. -/
theorem WellFormed.product {n : Nat} {m k : Monomial} (hm : m.WellFormed n) (hk : k.WellFormed n)
    (h : Fits m k) : (m.product k).WellFormed n where
  length := by rw [Monomial.product, List.length_zipWith, hm.length, hk.length, Nat.min_self]
  le_max := h

end Monomial

namespace Polynomial

variable {n : Nat} {p q : Polynomial}

/-- A polynomial in `n` parameters, with one exponent for each of them in every monomial. -/
structure WellFormed (n : Nat) (p : Polynomial) : Prop where
  numVars : p.numVars = n
  monomial : ∀ t ∈ p.terms, t.1.WellFormed n

/-- Changing the coefficient of a well-formed monomial keeps a polynomial well-formed. -/
theorem WellFormed.alter (hp : p.WellFormed n) {m : Monomial} (hm : m.WellFormed n)
    (f : Rat → Rat) : (p.alter m f).WellFormed n where
  numVars := hp.numVars
  monomial t ht := by
    -- only `m` can be new
    rcases Terms.mem_alter ht with h | h
    · rw [h]
      exact hm
    · exact hp.monomial t h

/-- The same for the coefficients of a list of monomials. -/
theorem WellFormed.foldl_alter (hp : p.WellFormed n) (g : Term → Rat → Rat) {ts : List Term}
    (hts : ∀ t ∈ ts, t.1.WellFormed n) :
    (ts.foldl (fun p t => p.alter t.1 (g t)) p).WellFormed n := by
  -- the polynomial changes from term to term, and stays well-formed
  induction ts generalizing p with
  | nil => exact hp
  | cons t ts ih =>
    obtain ⟨ht, hts⟩ := List.forall_mem_cons.mp hts
    exact ih (hp.alter ht (g t)) hts

theorem wellFormed_zero (n : Nat) : (zero n).WellFormed n := ⟨rfl, by simp [zero]⟩

theorem wellFormed_constant (n : Nat) (c : Rat) : (constant n c).WellFormed n :=
  (wellFormed_zero n).alter (Monomial.wellFormed_one n) _

theorem wellFormed_one (n : Nat) : (one n).WellFormed n := wellFormed_constant n 1

/-- A variable that exists is well-formed. -/
theorem wellFormed_of_var {i : Nat} (h : var n i = .ok p) : p.WellFormed n := by
  unfold var at h
  split at h
  · rw [← Except.ok.inj h]
    exact (wellFormed_zero n).alter (Monomial.wellFormed_var n i) _
  · cases h

theorem wellFormed_ofTerms {ts : List Term} (hts : ∀ t ∈ ts, t.1.WellFormed n) :
    (ofTerms n ts).WellFormed n :=
  (wellFormed_zero n).foldl_alter (fun t c => c + t.2) hts

/-- **Sums** of well-formed polynomials are well-formed. -/
theorem WellFormed.add (hp : p.WellFormed n) (hq : q.WellFormed n) : (p.add q).WellFormed n :=
  hp.foldl_alter (fun t c => c + t.2) hq.monomial

theorem WellFormed.neg (hp : p.WellFormed n) : p.neg.WellFormed n where
  numVars := hp.numVars
  monomial t ht := by
    obtain ⟨s, hs, rfl⟩ := List.mem_map.mp ht
    exact hp.monomial s hs

/-- **Multiples** of well-formed polynomials are well-formed, with the factor 0 as well. -/
theorem WellFormed.scale (hp : p.WellFormed n) (c : Rat) : (p.scale c).WellFormed n := by
  unfold Polynomial.scale
  split
  · rw [hp.numVars]
    exact wellFormed_zero n
  · refine ⟨hp.numVars, fun t ht => ?_⟩
    obtain ⟨s, hs, rfl⟩ := List.mem_map.mp ht
    exact hp.monomial s hs

/-- The products of pairs of terms. -/
theorem mem_pairProducts {t : Term} (h : t ∈ pairProducts p q) :
    ∃ s ∈ p.terms, ∃ u ∈ q.terms, t = (s.1.product u.1, s.2 * u.2) := by
  obtain ⟨s, hs, ht⟩ := List.mem_flatMap.mp h
  obtain ⟨u, hu, rfl⟩ := List.mem_map.mp ht
  exact ⟨s, hs, u, hu, rfl⟩

/-- **Products** of well-formed polynomials are well-formed, if they can be computed. -/
theorem WellFormed.of_mul (hp : p.WellFormed n) (hq : q.WellFormed n) {r : Polynomial}
    (h : p.mul q = .ok r) : r.WellFormed n := by
  obtain ⟨hfits, rfl⟩ := mul_eq_ok_iff.mp h
  rw [hp.numVars]
  -- that there is a product says that no exponent has left its range
  refine wellFormed_ofTerms fun t ht => ?_
  obtain ⟨s, hs, u, hu, rfl⟩ := mem_pairProducts ht
  exact (hp.monomial s hs).product (hq.monomial u hu) (hfits s hs u hu)

/-! ## Small exponents -/

/-- No exponent is larger than half of the largest one. -/
def SmallExponents (p : Polynomial) : Prop := ∀ t ∈ p.terms, ∀ e ∈ t.1, 2 * e ≤ maxExponent

/-- Exponents up to half of the range can be added. -/
theorem fits_of_smallExponents (hp : p.SmallExponents) (hq : q.SmallExponents) : p.Fits q := by
  intro s hs t ht e he
  obtain ⟨i, hi, rfl⟩ := List.mem_iff_getElem.mp he
  rw [Monomial.product, List.length_zipWith] at hi
  -- an exponent of the product is the sum of two exponents
  obtain ⟨his, hit⟩ := Nat.lt_min.mp hi
  have hd := hp s hs s.1[i] (List.getElem_mem _)
  have he := hq t ht t.1[i] (List.getElem_mem _)
  simp only [Monomial.product, List.getElem_zipWith]
  omega

/-- The exponents of constants are 0. -/
theorem smallExponents_constant (n : Nat) (c : Rat) : (constant n c).SmallExponents := by
  intro t ht e he
  rcases Terms.mem_alter ht with h | h
  · rw [h] at he
    rw [List.eq_of_mem_replicate he]
    exact Nat.zero_le _
  · cases h

/-- Scaling leaves the exponents as they are. -/
theorem SmallExponents.scale (hp : p.SmallExponents) (c : Rat) : (p.scale c).SmallExponents := by
  unfold Polynomial.scale
  split
  · exact fun t ht => by cases ht
  · intro t ht
    obtain ⟨s, hs, rfl⟩ := List.mem_map.mp ht
    exact hp s hs

theorem SmallExponents.neg (hp : p.SmallExponents) : p.neg.SmallExponents := by
  intro t ht
  obtain ⟨s, hs, rfl⟩ := List.mem_map.mp ht
  exact hp s hs

end Polynomial

end FunctionCache
