import FunctionCache.Proofs.Computation
import FunctionCache.Proofs.Polynomial.Constants
import FunctionCache.Proofs.Polynomial.Divisors
import FunctionCache.RationalFunction.Basic

/-!
# Divisions of numbers

Normalising divides coefficients, and arithmetic with functions divides numbers
nowhere else. None of the divisors is 0: polynomials store no coefficient 0, so
neither the coefficients that a ratio is made of, nor a constant denominator,
nor a leading coefficient can be one. Therefore it plays no role what a division
by 0 gives, be it a number or a fault.

* `Division` — division of numbers, with any outcome at all for the divisor 0;
* `RationalFunction.ofFractionBy` — normalising with such a division;
* `RationalFunction.ofFractionBy_eq` — it makes no difference which one.
-/

namespace FunctionCache

/-- A division of rational numbers that may do anything when the divisor is 0. -/
structure Division where
  divide : Rat → Rat → Except Failure Rat
  divide_eq (x : Rat) {y : Rat} : y ≠ 0 → divide x y = .ok (x / y)

/-! ## Normalising with a division -/

/-- The coefficients of the first list divided by those of the second are `r`, on equal
monomials. -/
def Terms.proportionalBy (d : Division) (r : Rat) : List Term → List Term → Except Failure Bool
  | [], [] => return true
  | s :: ss, t :: ts => do
    if s.1 == t.1 then
      if (← d.divide s.2 t.2) == r then proportionalBy d r ss ts else return false
    else return false
  | _, _ => return false

/-- The number `r` with `p = r * q`, found by dividing coefficients. -/
def Polynomial.ratioToBy (d : Division) (p q : Polynomial) : Except Failure (Option Rat) :=
  match p.terms, q.terms with
  | s :: _, t :: _ => do
    let r ← d.divide s.2 t.2
    if ← Terms.proportionalBy d r p.terms q.terms then return some r else return none
  | _, _ => return none

namespace RationalFunction

/-- `p` over the constant `c`, multiplied by the reciprocal of `c`. -/
def overConstantBy (d : Division) (p : Polynomial) (c : Rat) : Except Failure RationalFunction :=
  return ofPolynomial p.numVars (p.scale (← d.divide 1 c))

/-- `p` over `q` in normal form, with a division of its own. -/
def ofFractionBy (d : Division) (p q : Polynomial) : Except Failure RationalFunction :=
  if q.isZero then throw (.error .divisionByZero)
  else if p.isZero then return ofPolynomial p.numVars p
  else
    match q.constantValue? with
    | some c => overConstantBy d p c
    | none => do
      match ← p.ratioToBy d q with
      | some r => return constant p.numVars r
      | none => do
        let (p', q') ← (cancelMonomials p q : Except Fault _)
        match q'.constantValue? with
        | some c => overConstantBy d p' c
        | none => do
          let c ← d.divide 1 (q'.leadingCoeff?.getD 1)
          return fraction (p'.scale c) (q'.scale c)

end RationalFunction

/-! ## Divisors -/

variable (d : Division)

/-- The coefficients of the second list are the divisors. -/
theorem Terms.proportionalBy_eq {r : Rat} {ss ts : List Term} (hts : Nonzero ts) :
    proportionalBy d r ss ts = .ok (proportional r ss ts) := by
  induction ts generalizing ss with
  | nil => cases ss <;> rfl
  | cons t ts ih =>
    obtain ⟨ht, hts⟩ := List.forall_mem_cons.mp hts
    cases ss with
    | nil => rfl
    | cons s ss =>
      rw [proportionalBy, proportional, d.divide_eq _ ht, Failing.ok_bind, ih hts]
      cases s.1 == t.1
      · rfl
      · cases s.2 / t.2 == r <;> rfl

namespace Polynomial

variable {p q : Polynomial} {c : Rat}

/-- The ratio of two polynomials divides by coefficients of the second one only. -/
theorem ratioToBy_eq (p q : Polynomial) : p.ratioToBy d q = .ok (p.ratioTo? q) := by
  unfold ratioToBy ratioTo?
  cases hp : p.terms with
  | nil => rfl
  | cons s ss =>
    cases hq : q.terms with
    | nil => rfl
    | cons t ts =>
      have hnonzero : Terms.Nonzero (t :: ts) := hq ▸ q.nonzero
      dsimp only
      -- the first quotient is the candidate, the others are compared with it
      rw [d.divide_eq _ (hnonzero t (List.mem_cons_self ..)), Failing.ok_bind,
        Terms.proportionalBy_eq d hnonzero, Failing.ok_bind]
      split <;> rfl

/-- A constant other than the polynomial 0 is not 0. -/
theorem ne_zero_of_constantValue? (hq : q.isZero = false) (hc : q.constantValue? = some c) :
    c ≠ 0 := by
  unfold constantValue? at hc
  split at hc
  · cases hterms : q.terms with
    | nil => exact absurd hterms (terms_ne_nil hq)
    | cons t ts =>
      rw [hterms] at hc
      cases hc
      exact q.nonzero t (hterms ▸ List.mem_cons_self ..)
  · cases hc

theorem leadingCoeff?_getD_ne_zero (hq : q.isZero = false) : q.leadingCoeff?.getD 1 ≠ 0 := by
  obtain ⟨c, hlead, hc, -⟩ := exists_leadingCoeff hq
  rwa [hlead]

/-- The entry that comes last is there at the end. -/
theorem isZero_ofEntries_concat (n : Nat) (ts : List Term) {t : Term} (ht : t.2 ≠ 0) :
    (ofEntries n (ts ++ [t])).isZero = false := by
  have hcoeff : (ofEntries n (ts ++ [t])).coeff t.1 = t.2 := by
    rw [ofEntries, List.foldl_concat, coeff_alter, if_pos rfl]
  by_contra hzero
  rw [Bool.not_eq_false, isZero, List.isEmpty_iff] at hzero
  rw [coeff, hzero] at hcoeff
  exact ht hcoeff.symm

/-- Division by a monomial loses no more than all terms but one. -/
theorem isZero_of_divideByMonomial {m : Monomial} (hp : p.isZero = false)
    (h : p.divideByMonomial m = .ok q) : q.isZero = false := by
  have hne := terms_ne_nil hp
  have hlast : (p.terms.getLast hne).2 ≠ 0 := p.nonzero _ (List.getLast_mem hne)
  -- the last quotient has the coefficient of the last term, and no other comes after it
  rw [(divideByMonomial_eq_ok_iff.mp h).2, monomialQuotients,
    ← List.dropLast_append_getLast hne, List.map_append]
  exact isZero_ofEntries_concat _ _ hlast

end Polynomial

namespace RationalFunction

variable {p q p' q' : Polynomial} {c : Rat}

theorem overConstantBy_eq (p : Polynomial) (hc : c ≠ 0) :
    overConstantBy d p c = .ok (overConstant p c) := by
  rw [overConstantBy, d.divide_eq _ hc, one_div]
  rfl

/-- Cancelling a monomial does not make the denominator 0. -/
theorem isZero_of_cancelMonomials (hq : q.isZero = false)
    (h : cancelMonomials p q = .ok (p', q')) : q'.isZero = false := by
  unfold cancelMonomials at h
  dsimp only at h
  split at h
  · cases h
    exact hq
  · obtain ⟨r, -, h⟩ := Failing.bind_eq_ok.mp h
    obtain ⟨s, hs, h⟩ := Failing.bind_eq_ok.mp h
    cases h
    exact Polynomial.isZero_of_divideByMonomial hq hs

/-- **No number is divided by 0**: with any division, which is free to do anything for the divisor
0, normalising gives the same result. -/
theorem ofFractionBy_eq : ofFractionBy d = ofFraction := by
  funext p q
  unfold ofFractionBy ofFraction
  by_cases hq : q.isZero = true
  · rw [if_pos hq, if_pos hq]
  rw [if_neg hq, if_neg hq]
  rw [Bool.not_eq_true] at hq
  by_cases hp : p.isZero = true
  · rw [if_pos hp, if_pos hp]
  rw [if_neg hp, if_neg hp]
  -- the cases of normalising, in its order
  cases hc : q.constantValue? with
  | some c => exact overConstantBy_eq d p (Polynomial.ne_zero_of_constantValue? hq hc)
  | none =>
    rw [Polynomial.ratioToBy_eq]
    cases hr : p.ratioTo? q with
    | some r => rfl
    | none =>
      simp only [Failing.ok_bind]
      cases hcancel : cancelMonomials p q with
      | error e => rfl
      | ok parts =>
        have hq' := isZero_of_cancelMonomials hq hcancel
        simp only [Failing.lift_ok, Failing.ok_bind]
        cases hc' : parts.2.constantValue? with
        | some c => exact overConstantBy_eq d parts.1 (Polynomial.ne_zero_of_constantValue? hq' hc')
        | none =>
          -- the divisor is the leading coefficient of the cancelled denominator
          dsimp only
          rw [d.divide_eq _ (Polynomial.leadingCoeff?_getD_ne_zero hq'), one_div]
          rfl

end RationalFunction

end FunctionCache
