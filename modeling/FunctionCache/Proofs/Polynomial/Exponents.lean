import FunctionCache.Proofs.Polynomial.Constants
import FunctionCache.Proofs.Polynomial.Divisors

/-!
# Highest exponents

Whether a product overflows is decided by the highest exponent that each
parameter has in the two factors: the terms with these exponents need not be the
same for all parameters, but one parameter alone makes the product fail.

* `Polynomial.highest` — the highest exponent of a parameter;
* `Polynomial.Exceeds` — some parameter has highest exponents with too large a sum;
* `Polynomial.WellFormed.fits_iff` — products overflow exactly in this case;
* `Polynomial.WellFormed.not_exceeds_constant` — products with constants do not.
-/

namespace FunctionCache

namespace Monomial

/-- A bound of all exponents can be stated by position, for beyond the end they are 0. -/
theorem forall_mem_le_iff {m : Monomial} {b : Nat} : (∀ e ∈ m, e ≤ b) ↔ ∀ i, m.getD i 0 ≤ b := by
  constructor
  · intro h i
    rw [List.getD_eq_getElem?_getD]
    cases hi : m[i]? with
    | none => exact Nat.zero_le b
    | some e => exact h e (List.mem_of_getElem? hi)
  · intro h e he
    obtain ⟨i, hi, rfl⟩ := List.mem_iff_getElem.mp he
    have hle := h i
    rwa [List.getD_eq_getElem?_getD, List.getElem?_eq_getElem hi, Option.getD_some] at hle

/-- The exponents of a product fit exactly if the two exponents of each parameter do. -/
theorem fits_iff {m k : Monomial} (hlen : m.length = k.length) :
    Fits m k ↔ ∀ i, m.getD i 0 + k.getD i 0 ≤ maxExponent := by
  rw [Fits, forall_mem_le_iff]
  simp only [getD_product hlen]

end Monomial

namespace Terms

/-- The highest exponent of the parameter `i`; 0 if there is no term. -/
def highest (i : Nat) : List Term → Nat
  | [] => 0
  | t :: ts => max (t.1.getD i 0) (highest i ts)

/-- The highest exponent is the least upper bound. -/
theorem highest_le_iff {i b : Nat} {ts : List Term} :
    highest i ts ≤ b ↔ ∀ t ∈ ts, t.1.getD i 0 ≤ b := by
  induction ts with
  | nil => simp [highest]
  | cons t ts ih => rw [highest, Nat.max_le, ih, List.forall_mem_cons]

/-- The highest exponent is taken in some term, unless it is 0. -/
theorem exists_getD_eq_highest {i : Nat} {ts : List Term} (h : highest i ts ≠ 0) :
    ∃ t ∈ ts, t.1.getD i 0 = highest i ts := by
  induction ts with
  | nil => exact absurd rfl h
  | cons t ts ih =>
    rw [highest] at h ⊢
    -- the first term has it, or one of the others
    rcases Nat.le_total (highest i ts) (t.1.getD i 0) with hle | hle
    · exact ⟨t, List.mem_cons_self .., (Nat.max_eq_left hle).symm⟩
    · rw [Nat.max_eq_right hle] at h ⊢
      obtain ⟨s, hs, hsi⟩ := ih h
      exact ⟨s, List.mem_cons_of_mem _ hs, hsi⟩

end Terms

namespace Polynomial

variable {n : Nat} {p q : Polynomial}

/-- The highest exponent of the parameter `i`; 0 if it does not occur. -/
def highest (p : Polynomial) (i : Nat) : Nat := Terms.highest i p.terms

/-- No term exceeds the highest exponent. -/
theorem getD_le_highest {t : Term} (ht : t ∈ p.terms) (i : Nat) : t.1.getD i 0 ≤ p.highest i :=
  Terms.highest_le_iff.mp (Nat.le_refl _) t ht

/-- The highest exponents of well-formed polynomials are in range. -/
theorem WellFormed.highest_le (hp : p.WellFormed n) (i : Nat) : p.highest i ≤ maxExponent :=
  Terms.highest_le_iff.mpr fun t ht =>
    Monomial.forall_mem_le_iff.mp (hp.monomial t ht).le_max i

/-- For some parameter the highest exponents of the two polynomials have too large a sum. -/
def Exceeds (p q : Polynomial) : Prop := ∃ i, maxExponent < p.highest i + q.highest i

/-- **The terms of two polynomials fit** exactly if the highest exponents of each parameter do. -/
theorem WellFormed.fits_iff (hp : p.WellFormed n) (hq : q.WellFormed n) :
    p.Fits q ↔ ¬p.Exceeds q := by
  have hlength (s : Term) (hs : s ∈ p.terms) (t : Term) (ht : t ∈ q.terms) :
      s.1.length = t.1.length :=
    (hp.monomial s hs).length.trans (hq.monomial t ht).length.symm
  simp only [Exceeds, not_exists, Nat.not_lt]
  constructor
  · intro h i
    have hpi := hp.highest_le i
    have hqi := hq.highest_le i
    by_cases hp0 : p.highest i = 0
    · omega
    by_cases hq0 : q.highest i = 0
    · omega
    -- the terms that attain both of them are one of the pairs
    obtain ⟨s, hs, hsi⟩ := Terms.exists_getD_eq_highest hp0
    obtain ⟨t, ht, hti⟩ := Terms.exists_getD_eq_highest hq0
    have hfits := (Monomial.fits_iff (hlength s hs t ht)).mp (h s hs t ht) i
    rwa [hsi, hti] at hfits
  · intro h s hs t ht
    refine (Monomial.fits_iff (hlength s hs t ht)).mpr fun i => ?_
    exact Nat.le_trans (Nat.add_le_add (getD_le_highest hs i) (getD_le_highest ht i)) (h i)

/-! ## Constants -/

/-- Constants have no exponents other than 0. -/
theorem highest_constant (n : Nat) (c : Rat) (i : Nat) : (constant n c).highest i = 0 := by
  refine Nat.le_zero.mp (Terms.highest_le_iff.mpr fun t ht => ?_)
  have hone := List.all_eq_true.mp (isConstant_constant n c) t ht
  exact (Monomial.isOne_iff.mp hone i).le

/-- Multiplying with a constant never overflows. -/
theorem WellFormed.not_exceeds_constant (hp : p.WellFormed n) (c : Rat) :
    ¬p.Exceeds (constant n c) := by
  rintro ⟨i, hi⟩
  have hpi := hp.highest_le i
  rw [highest_constant] at hi
  omega

theorem exceeds_comm : p.Exceeds q ↔ q.Exceeds p := by
  simp only [Exceeds, Nat.add_comm]

end Polynomial

end FunctionCache
