import FunctionCache.Proofs.Polynomial.WellFormed

/-!
# Constant polynomials and proportions

Since the representation is unique, what a polynomial looks like tells what it
is: a well-formed polynomial in whose terms no parameter occurs is a constant,
and one whose coefficients are in proportion to those of another one is its
multiple.

* `Polynomial.WellFormed.constantValue?_eq_some_iff`, `isConstant_iff`,
  `isOne_iff`, `isZero_iff` — the tests for constants;
* `Polynomial.ratioTo?_eq_some_iff` — the test for multiples.
-/

namespace FunctionCache

namespace Monomial

/-- The test for 1 is right for monomials of one length. -/
theorem eq_one_of_isOne {n : Nat} {m : Monomial} (hm : m.length = n) (h : m.isOne = true) :
    m = one n := by
  refine List.eq_replicate_iff.mpr ⟨hm, fun e he => ?_⟩
  exact beq_iff_eq.mp (List.all_eq_true.mp h e he)

theorem isOne_one (n : Nat) : (one n).isOne = true := by
  refine List.all_eq_true.mpr fun e he => ?_
  rw [List.eq_of_mem_replicate he]
  rfl

end Monomial

namespace Terms

/-- Coefficients are in proportion if the first ones are multiples of the second ones. -/
theorem proportional_iff {r : Rat} {ss ts : List Term} (hts : Nonzero ts) :
    proportional r ss ts = true ↔ ss = ts.map fun t => (t.1, t.2 * r) := by
  -- both lists are read in step
  induction ts generalizing ss with
  | nil => cases ss <;> simp [proportional]
  | cons t ts ih =>
    obtain ⟨ht, hts⟩ := List.forall_mem_cons.mp hts
    cases ss with
    | nil => simp [proportional]
    | cons s ss =>
      -- the divisor is a coefficient of `ts`, so it is not 0
      have hratio : s.2 / t.2 = r ↔ s.2 = t.2 * r := by
        rw [div_eq_iff ht, Rat.mul_comm]
      simp only [proportional, Bool.and_eq_true, beq_iff_eq, ih hts, List.map_cons,
        List.cons.injEq, hratio, Prod.ext_iff]

end Terms

namespace Polynomial

variable {n : Nat} {p q : Polynomial} {c r : Rat}

/-! ## Constants -/

/-- A constant has one term, or none if it is 0. -/
theorem terms_constant (n : Nat) (c : Rat) :
    (constant n c).terms = Terms.consNonzero (Monomial.one n) c [] := by
  show Terms.consNonzero (Monomial.one n) (0 + c) [] = _
  rw [Rat.zero_add]

theorem isZero_constant (n : Nat) (hc : c ≠ 0) : (constant n c).isZero = false := by
  rw [isZero, terms_constant, Terms.consNonzero, if_neg hc]
  rfl

theorem isZero_one (n : Nat) : (one n).isZero = false := isZero_constant n one_ne_zero

/-- The coefficient of a constant stands at the monomial 1. -/
theorem coeff_constant (n : Nat) (c : Rat) (k : Monomial) :
    (constant n c).coeff k = if Monomial.one n = k then c else 0 := by
  rw [constant, coeff_addTerm, coeff_zero, coeff_zero, Rat.zero_add]

@[simp] theorem constant_zero (n : Nat) : constant n 0 = zero n := by
  refine ext_coeff rfl fun k => ?_
  rw [coeff_constant, coeff_zero, ite_self]

theorem constant_injective (n : Nat) : Function.Injective (constant n) := by
  intro c d h
  have hcoeff := congrArg (coeff · (Monomial.one n)) h
  simpa only [coeff_constant, if_pos] using hcoeff

/-- The test for constants recognises constants. -/
theorem isConstant_constant (n : Nat) (c : Rat) : (constant n c).isConstant = true := by
  refine List.all_eq_true.mpr fun t ht => ?_
  rw [terms_constant, Terms.consNonzero] at ht
  split at ht
  · cases ht
  · rw [List.mem_singleton.mp ht]
    exact Monomial.isOne_one n

/-- The value of a constant is found. -/
theorem constantValue?_constant (n : Nat) (c : Rat) : (constant n c).constantValue? = some c := by
  rw [constantValue?, if_pos (isConstant_constant n c), terms_constant, Terms.consNonzero]
  split
  · -- the constant 0 has no term that carries the value
    rename_i hc
    rw [hc]
    rfl
  · rfl

/-- A polynomial in which no parameter occurs is a constant. -/
theorem WellFormed.eq_constant (hp : p.WellFormed n) (h : p.isConstant = true) :
    p = constant n (p.coeff (Monomial.one n)) := by
  refine ext_coeff hp.numVars fun k => ?_
  rw [coeff_constant]
  split
  · rename_i hk
    rw [hk]
  · rename_i hk
    -- a term with another monomial would contain a parameter
    refine Terms.coeff_eq_zero fun t ht htk => hk ?_
    have hone := Monomial.eq_one_of_isOne (hp.monomial t ht).length (List.all_eq_true.mp h t ht)
    rw [← htk, hone]

/-- **The value of a constant** is found for constants, and for nothing else. -/
theorem WellFormed.constantValue?_eq_some_iff (hp : p.WellFormed n) :
    p.constantValue? = some c ↔ p = constant n c := by
  constructor
  · intro h
    -- a value is only returned if the test succeeds
    have hconstant : p.isConstant = true := by
      unfold constantValue? at h
      split at h
      · assumption
      · cases h
    have hp' := hp.eq_constant hconstant
    rw [hp', constantValue?_constant] at h
    rw [hp', Option.some.inj h]
  · rintro rfl
    exact constantValue?_constant n c

theorem constantValue?_eq_none_iff : p.constantValue? = none ↔ p.isConstant = false := by
  unfold constantValue?
  split <;> simp_all

/-- The test for constants finds nothing else. -/
theorem WellFormed.isConstant_iff (hp : p.WellFormed n) :
    p.isConstant = true ↔ ∃ c, p = constant n c := by
  constructor
  · exact fun h => ⟨_, hp.eq_constant h⟩
  · rintro ⟨c, rfl⟩
    exact isConstant_constant n c

theorem WellFormed.isOne_iff (hp : p.WellFormed n) : p.isOne = true ↔ p = one n := by
  rw [isOne, beq_iff_eq, hp.constantValue?_eq_some_iff]
  rfl

/-- The test for 0 finds nothing else. -/
theorem WellFormed.isZero_iff (hp : p.WellFormed n) : p.isZero = true ↔ p = zero n := by
  constructor
  · intro h
    refine ext_coeff hp.numVars fun k => ?_
    rw [coeff, List.isEmpty_iff.mp h]
    rfl
  · rintro rfl
    rfl

theorem WellFormed.isZero_eq_false_iff (hp : p.WellFormed n) : p.isZero = false ↔ p ≠ zero n := by
  rw [← Bool.not_eq_true, hp.isZero_iff]

/-! ## Multiples -/

/-- Scaling multiplies all coefficients. -/
theorem coeff_scale (p : Polynomial) (c : Rat) (k : Monomial) :
    (p.scale c).coeff k = p.coeff k * c := by
  unfold scale
  split
  · rename_i hc
    rw [hc, Rat.mul_zero]
    rfl
  · -- monomial by monomial
    show Terms.coeff (p.terms.map fun t => (t.1, t.2 * c)) k = Terms.coeff p.terms k * c
    induction p.terms with
    | nil => exact (Rat.zero_mul c).symm
    | cons t ts ih =>
      rw [List.map_cons, Terms.coeff_cons, Terms.coeff_cons, ih]
      split <;> rfl

@[simp] theorem scale_one (p : Polynomial) : p.scale 1 = p := by
  refine ext_coeff (numVars_scale p 1) fun k => ?_
  rw [coeff_scale, Rat.mul_one]

theorem scale_zero (p : Polynomial) : p.scale 0 = zero p.numVars := by
  rw [scale, dif_pos rfl]

/-- Scaling by a number other than 0 keeps all terms. -/
theorem terms_scale (p : Polynomial) (hc : c ≠ 0) :
    (p.scale c).terms = p.terms.map fun t => (t.1, t.2 * c) := by
  unfold scale
  rw [dif_neg hc]

/-- The opposite is the multiple by -1. -/
theorem neg_eq_scale (p : Polynomial) : p.neg = p.scale (-1) := by
  have hterms : p.neg.terms = (p.scale (-1)).terms := by
    rw [terms_scale p (by decide), neg]
    simp only [mul_neg_one]
  refine ext_coeff (numVars_scale p (-1)).symm fun k => ?_
  rw [coeff, coeff, hterms]

theorem isZero_scale (hc : c ≠ 0) : (p.scale c).isZero = p.isZero := by
  rw [isZero, terms_scale p hc, List.isEmpty_map]
  rfl

/-- Scaling by a number other than 0 does not change which monomials occur. -/
theorem isConstant_scale (hc : c ≠ 0) : (p.scale c).isConstant = p.isConstant := by
  rw [isConstant, terms_scale p hc, List.all_map]
  rfl

theorem isZero_neg (p : Polynomial) : p.neg.isZero = p.isZero := by
  rw [neg_eq_scale, isZero_scale (by decide)]

theorem isConstant_neg (p : Polynomial) : p.neg.isConstant = p.isConstant := by
  rw [neg_eq_scale, isConstant_scale (by decide)]

/-- The leading term stays where it is. -/
theorem leadingCoeff?_scale (hc : c ≠ 0) :
    (p.scale c).leadingCoeff? = p.leadingCoeff?.map (· * c) := by
  rw [leadingCoeff?, leadingCoeff?, terms_scale p hc, List.getLast?_map, Option.map_map,
    Option.map_map]
  rfl

/-- A polynomial other than 0 can be made to lead with 1. -/
theorem exists_leadingCoeff (hq : q.isZero = false) :
    ∃ c, q.leadingCoeff? = some c ∧ c ≠ 0 ∧ (q.scale c⁻¹).leadingCoeff? = some 1 := by
  have hne := terms_ne_nil hq
  have hc := q.nonzero _ (List.getLast_mem hne)
  have hlead : q.leadingCoeff? = some (q.terms.getLast hne).2 := by
    rw [leadingCoeff?, List.getLast?_eq_getLast_of_ne_nil hne]
    rfl
  refine ⟨(q.terms.getLast hne).2, hlead, hc, ?_⟩
  rw [leadingCoeff?_scale (inv_ne_zero hc), hlead, Option.map_some, mul_inv_cancel₀ hc]

/-- Multiples of constants are constants. -/
theorem scale_constant (n : Nat) (c d : Rat) : (constant n c).scale d = constant n (c * d) := by
  refine ext_coeff (by simp) fun k => ?_
  rw [coeff_scale, coeff_constant, coeff_constant]
  split
  · rfl
  · exact Rat.zero_mul d

/-- **The ratio of two polynomials** is found exactly if there is one, unless both are 0. -/
theorem ratioTo?_eq_some_iff (h : p.numVars = q.numVars) :
    p.ratioTo? q = some r ↔ p.isZero = false ∧ p = q.scale r := by
  have hq (r : Rat) : Terms.proportional r p.terms q.terms = true ↔
      p.terms = q.terms.map fun t => (t.1, t.2 * r) := Terms.proportional_iff q.nonzero
  constructor
  · intro hr
    unfold ratioTo? at hr
    split at hr
    · rename_i s ss t ts hs ht
      dsimp only at hr
      split at hr
      · rename_i hprop
        -- the ratio of the first coefficients is that of all others
        cases Option.some.inj hr
        have hr0 : s.2 / t.2 ≠ 0 := div_ne_zero
          (p.nonzero s (hs ▸ List.mem_cons_self ..)) (q.nonzero t (ht ▸ List.mem_cons_self ..))
        have hterms := (hq _).mp hprop
        refine ⟨by rw [isZero, hs]; rfl, ext_coeff (by simp [h]) fun k => ?_⟩
        rw [coeff, coeff, terms_scale q hr0, hterms]
      · cases hr
    · cases hr
  · rintro ⟨hp, hpq⟩
    -- only 0 is a multiple with ratio 0
    have hr0 : r ≠ 0 := by
      rintro rfl
      rw [hpq, scale, dif_pos rfl] at hp
      cases hp
    have hterms : p.terms = q.terms.map fun t => (t.1, t.2 * r) := by
      rw [← terms_scale q hr0, ← hpq]
    unfold ratioTo?
    cases ht : q.terms with
    | nil =>
      rw [isZero, hterms, ht] at hp
      cases hp
    | cons t ts =>
      have hr : t.2 * r / t.2 = r :=
        mul_div_cancel_left₀ r (q.nonzero t (ht ▸ List.mem_cons_self ..))
      have hprop := (hq r).mpr hterms
      rw [ht] at hprop hterms
      rw [hterms, List.map_cons] at hprop ⊢
      dsimp only
      rw [hr, if_pos hprop]

end Polynomial

end FunctionCache
