import Mathlib.Algebra.BigOperators.Group.Multiset.Basic
import Mathlib.Algebra.Field.Rat
import Mathlib.Tactic.Ring
import FunctionCache.Polynomial.Basic

/-!
# Polynomials by their coefficients

A polynomial is determined by its number of parameters and its coefficients,
whatever order its terms were added in. Every operation is described by what it
does to the coefficient of one monomial, as a sum over a list of terms:

* `Terms.weight` — the sum of the coefficients that a list of terms gives to a
  monomial, where monomials may repeat;
* `Polynomial.ext_coeff` — equal coefficients make equal polynomials;
* `Polynomial.coeff_ofTerms`, `coeff_add` — the coefficients of a sum;
* `Polynomial.add_comm` — sums do not depend on the order of the summands.

No statement asks for monomials of one length.
-/

namespace FunctionCache

namespace Terms

/-- The sum of the coefficients of `k` in a list of terms, in which monomials may repeat. -/
def weight (ts : List Term) (k : Monomial) : Rat :=
  (ts.map fun t => if t.1 = k then t.2 else 0).sum

@[simp] theorem weight_nil (k : Monomial) : weight [] k = 0 := rfl

@[simp] theorem weight_cons (t : Term) (ts : List Term) (k : Monomial) :
    weight (t :: ts) k = (if t.1 = k then t.2 else 0) + weight ts k := by
  simp [weight]

theorem weight_append (ts us : List Term) (k : Monomial) :
    weight (ts ++ us) k = weight ts k + weight us k := by
  simp [weight]

/-- In a sorted list the first monomial does not occur again. -/
private theorem coeff_tail_head {t : Term} {ts : List Term} (hs : Sorted (t :: ts)) :
    coeff ts t.1 = 0 := by
  refine coeff_eq_zero fun s hst heq => ?_
  have hlt := (List.pairwise_cons.mp hs).1 s hst
  exact List.lt_irrefl t.1 (heq ▸ hlt)

/-- In a sorted list there is nothing before the first monomial. -/
private theorem coeff_of_lt_head {t : Term} {ts : List Term} (hs : Sorted (t :: ts))
    {k : Monomial} (hk : k < t.1) : coeff (t :: ts) k = 0 := by
  refine coeff_eq_zero fun s hst heq => ?_
  rcases List.mem_cons.mp hst with rfl | hst
  · exact List.lt_irrefl k (heq ▸ hk)
  · have hlt := (List.pairwise_cons.mp hs).1 s hst
    exact List.lt_irrefl k (List.lt_trans hk (heq ▸ hlt))

/-- In a sorted list a term is the only one with its monomial. -/
theorem coeff_of_mem {ts : List Term} (hs : Sorted ts) {t : Term} (ht : t ∈ ts) :
    coeff ts t.1 = t.2 := by
  induction ts with
  | nil => cases ht
  | cons s ts ih =>
    obtain ⟨hlt, hs'⟩ := List.pairwise_cons.mp hs
    rw [coeff_cons]
    rcases List.mem_cons.mp ht with rfl | ht
    · rw [if_pos rfl]
    · -- the monomials after the first one are larger
      have hne : s.1 ≠ t.1 := fun h => List.lt_irrefl t.1 (h ▸ hlt t ht)
      rw [if_neg hne, ih hs' ht]

/-- In a sorted list every monomial occurs once, so its weight is its coefficient. -/
theorem weight_eq_coeff {ts : List Term} (hs : Sorted ts) (k : Monomial) :
    weight ts k = coeff ts k := by
  induction ts with
  | nil => rfl
  | cons t ts ih =>
    rw [weight_cons, coeff_cons, ih (List.pairwise_cons.mp hs).2]
    by_cases hk : t.1 = k
    · -- the head has the monomial, so the tail has not
      rw [if_pos hk, if_pos hk, ← hk, coeff_tail_head hs, Rat.add_zero]
    · rw [if_neg hk, if_neg hk, Rat.zero_add]

/-- Only monomials that occur have a weight. -/
theorem exists_of_weight_ne_zero {ts : List Term} {k : Monomial} (h : weight ts k ≠ 0) :
    ∃ t ∈ ts, t.1 = k := by
  induction ts with
  | nil => exact absurd rfl h
  | cons t ts ih =>
    by_cases hk : t.1 = k
    · exact ⟨t, List.mem_cons_self .., hk⟩
    · rw [weight_cons, if_neg hk, Rat.zero_add] at h
      obtain ⟨s, hs, hsk⟩ := ih h
      exact ⟨s, List.mem_cons_of_mem _ hs, hsk⟩

/-- Sorted lists without zeros are determined by their coefficients. -/
theorem ext_coeff {ts us : List Term} (hts : Sorted ts) (hus : Sorted us)
    (nts : Nonzero ts) (nus : Nonzero us) (h : ∀ k, coeff ts k = coeff us k) : ts = us := by
  induction ts generalizing us with
  | nil =>
    cases us with
    | nil => rfl
    | cons u us =>
      -- the head of `us` has a coefficient that the empty list has not
      have hu := h u.1
      rw [coeff_nil, coeff_cons, if_pos rfl] at hu
      exact absurd hu.symm (nus u (List.mem_cons_self ..))
  | cons t ts ih =>
    cases us with
    | nil =>
      have ht := h t.1
      rw [coeff_nil, coeff_cons, if_pos rfl] at ht
      exact absurd ht (nts t (List.mem_cons_self ..))
    | cons u us =>
      have hnt : t.2 ≠ 0 := nts t (List.mem_cons_self ..)
      have hnu : u.2 ≠ 0 := nus u (List.mem_cons_self ..)
      -- a head below the other one would be a monomial of one list only
      have hhead : t.1 = u.1 := by
        refine List.le_antisymm (List.not_lt.mp fun hlt => ?_) (List.not_lt.mp fun hlt => ?_)
        · have hk := h u.1
          rw [coeff_of_lt_head hts hlt, coeff_cons, if_pos rfl] at hk
          exact hnu hk.symm
        · have hk := h t.1
          rw [coeff_of_lt_head hus hlt, coeff_cons, if_pos rfl] at hk
          exact hnt hk
      have hcoeff : t.2 = u.2 := by
        have hk := h t.1
        rwa [coeff_cons, coeff_cons, if_pos rfl, if_pos hhead.symm] at hk
      have htail : ts = us := by
        refine ih (List.pairwise_cons.mp hts).2 (List.pairwise_cons.mp hus).2
          (fun s hs => nts s (List.mem_cons_of_mem _ hs))
          (fun s hs => nus s (List.mem_cons_of_mem _ hs)) fun k => ?_
        by_cases hk : t.1 = k
        · -- neither tail has the monomial of the heads
          rw [← hk, coeff_tail_head hts, hhead, coeff_tail_head hus]
        · have := h k
          rwa [coeff_cons, coeff_cons, if_neg hk, if_neg (hhead ▸ hk)] at this
      rw [htail, Prod.ext hhead hcoeff]

end Terms

namespace Polynomial

/-- **A polynomial is determined by its coefficients.** -/
theorem ext_coeff {p q : Polynomial} (hn : p.numVars = q.numVars)
    (h : ∀ k, p.coeff k = q.coeff k) : p = q := by
  have hterms : p.terms = q.terms := Terms.ext_coeff p.sorted q.sorted p.nonzero q.nonzero h
  cases p
  cases q
  cases hn
  cases hterms
  rfl

/-- Terms carry the coefficients. -/
theorem coeff_of_mem {p : Polynomial} {t : Term} (ht : t ∈ p.terms) : p.coeff t.1 = t.2 :=
  Terms.coeff_of_mem p.sorted ht

/-- Only monomials of terms have a coefficient other than 0. -/
theorem exists_of_coeff_ne_zero {p : Polynomial} {k : Monomial} (h : p.coeff k ≠ 0) :
    ∃ t ∈ p.terms, t.1 = k := by
  rw [coeff, ← Terms.weight_eq_coeff p.sorted] at h
  exact Terms.exists_of_weight_ne_zero h

theorem terms_ne_nil {p : Polynomial} (h : p.isZero = false) : p.terms ≠ [] := by
  intro hterms
  rw [isZero, hterms] at h
  cases h

/-- A polynomial other than 0 has a term. -/
theorem exists_mem_terms {p : Polynomial} (h : p.isZero = false) : ∃ t, t ∈ p.terms :=
  List.exists_mem_of_ne_nil p.terms (terms_ne_nil h)

/-! ## Numbers of parameters -/

@[simp] theorem numVars_one (n : Nat) : (one n).numVars = n := rfl

@[simp] theorem numVars_constant (n : Nat) (c : Rat) : (constant n c).numVars = n := rfl

@[simp] theorem numVars_neg (p : Polynomial) : p.neg.numVars = p.numVars := rfl

@[simp] theorem numVars_scale (p : Polynomial) (c : Rat) : (p.scale c).numVars = p.numVars := by
  unfold scale
  split <;> rfl

/-! ## Sums of terms -/

/-- Changing coefficients keeps the number of parameters. -/
theorem numVars_foldl_alter (g : Term → Rat → Rat) (ts : List Term) (p : Polynomial) :
    (ts.foldl (fun p t => p.alter t.1 (g t)) p).numVars = p.numVars := by
  induction ts generalizing p with
  | nil => rfl
  | cons t ts ih => rw [List.foldl_cons, ih, numVars_alter]

/-- Adding terms one by one adds their weight to each coefficient. -/
private theorem coeff_foldl_addTerm (ts : List Term) (p : Polynomial) (k : Monomial) :
    (ts.foldl (fun sum t => sum.addTerm t.1 t.2) p).coeff k =
      p.coeff k + Terms.weight ts k := by
  induction ts generalizing p with
  | nil => rw [List.foldl_nil, Terms.weight_nil, Rat.add_zero]
  | cons t ts ih =>
    rw [List.foldl_cons, ih, coeff_addTerm, Terms.weight_cons]
    -- a term counts for its own monomial only
    split
    · rename_i hk
      rw [hk, Rat.add_assoc]
    · rw [Rat.zero_add]

@[simp] theorem numVars_ofTerms (n : Nat) (ts : List Term) : (ofTerms n ts).numVars = n :=
  numVars_foldl_alter (fun t c => c + t.2) ts (zero n)

/-- The coefficient of a sum of terms is their weight: terms with one monomial add up. -/
theorem coeff_ofTerms (n : Nat) (ts : List Term) (k : Monomial) :
    (ofTerms n ts).coeff k = Terms.weight ts k := by
  rw [ofTerms, coeff_foldl_addTerm, coeff_zero, Rat.zero_add]

@[simp] theorem numVars_add (p q : Polynomial) : (p.add q).numVars = p.numVars :=
  numVars_foldl_alter (fun t c => c + t.2) q.terms p

/-- **The coefficients of a sum are the sums of the coefficients.** -/
theorem coeff_add (p q : Polynomial) (k : Monomial) :
    (p.add q).coeff k = p.coeff k + q.coeff k := by
  rw [add, coeff_foldl_addTerm, Terms.weight_eq_coeff q.sorted]
  rfl

/-- Polynomials in the same number of parameters can be added in either order. -/
theorem add_comm {p q : Polynomial} (h : p.numVars = q.numVars) : p.add q = q.add p := by
  refine ext_coeff ?_ fun k => ?_
  · rw [numVars_add, numVars_add, h]
  · rw [coeff_add, coeff_add, Rat.add_comm]

end Polynomial

end FunctionCache
