import FunctionCache.Proofs.Computation
import FunctionCache.Proofs.Polynomial.WellFormed

/-!
# Monomial divisors

A monomial divides another one if none of its exponents is larger. The content
of a polynomial is the largest monomial that divides all terms: each of its
exponents is that of some term. Dividing all terms by a common divisor keeps
their order, so no two of them meet and none is lost.

* `Monomial.div_eq_ite`, `Monomial.product_quotient` — division fails when an
  exponent would become negative, and multiplication undoes it otherwise;
* `Polynomial.content_divides`, `Polynomial.exists_getD_eq_content` — what the
  content is;
* `Polynomial.divideByMonomial_eq_ite` — the quotient by any monomial, with its
  one way to fail;
* `Polynomial.divideByMonomial_eq` — the quotient by a common divisor, term by term.
-/

namespace FunctionCache

namespace Monomial

/-- No exponent of `k` is larger than that of `m`. An exponent that is missing counts as 0. -/
def Divides (k m : Monomial) : Prop := ∀ i, k.getD i 0 ≤ m.getD i 0

/-- The quotient by a divisor. -/
def quotient (m k : Monomial) : Monomial := List.zipWith (· - ·) m k

/-- Divisibility, one exponent after the other. -/
theorem divides_cons {d e : Nat} {m k : Monomial} :
    Divides (e :: k) (d :: m) ↔ e ≤ d ∧ Divides k m := by
  constructor
  · intro h
    exact ⟨h 0, fun i => h (i + 1)⟩
  · rintro ⟨hed, h⟩ i
    cases i with
    | zero => exact hed
    | succ i => exact h i

/-- As far as both monomials go, no exponent of `k` is larger than that of `m`. -/
def Covers (m k : Monomial) : Prop := ∀ e ∈ m.zip k, e.2 ≤ e.1

instance (m k : Monomial) : Decidable (Covers m k) := inferInstanceAs (Decidable (∀ e ∈ _, _))

/-- The test of the division, one exponent after the other. -/
theorem covers_cons {d e : Nat} {m k : Monomial} :
    Covers (d :: m) (e :: k) ↔ e ≤ d ∧ Covers m k := by
  simp [Covers]

/-- **Subtracting exponents** fails when some difference would be negative. -/
theorem div_eq_ite (m k : Monomial) :
    m.div k = if m.Covers k then .ok (m.quotient k) else .error .exponentUnderflow := by
  induction m generalizing k with
  | nil => rfl
  | cons d m ih =>
    cases k with
    | nil => rfl
    | cons e k =>
      -- the first exponent that is too small stops the division
      simp only [div, subExponents, ih, covers_cons]
      by_cases hed : e ≤ d
      · by_cases hmk : Covers m k
        · simp [hed, hmk, bind, Except.bind, pure, Except.pure, quotient]
        · simp [hed, hmk, bind, Except.bind]
      · simp [hed, bind, Except.bind]

/-- Where no exponent is missing, a monomial covers its divisors. -/
theorem covers_iff {m k : Monomial} (hlen : m.length = k.length) : m.Covers k ↔ k.Divides m := by
  induction m generalizing k with
  | nil =>
    rw [List.length_eq_zero_iff.mp hlen.symm]
    exact iff_of_true (by simp [Covers]) fun i => Nat.le_refl _
  | cons d m ih =>
    cases k with
    | nil => cases hlen
    | cons e k => rw [covers_cons, divides_cons, ih (Nat.succ.inj hlen)]

theorem length_quotient {m k : Monomial} (h : m.length = k.length) :
    (m.quotient k).length = k.length := by
  rw [quotient, List.length_zipWith, h, Nat.min_self]

/-- Multiplication undoes the division. -/
theorem product_quotient {m k : Monomial} (hlen : m.length = k.length) (h : k.Divides m) :
    (m.quotient k).product k = m := by
  induction m generalizing k with
  | nil => rfl
  | cons d m ih =>
    cases k with
    | nil => cases hlen
    | cons e k =>
      -- the subtraction of natural numbers is exact because the exponent is large enough
      obtain ⟨hed, h⟩ := divides_cons.mp h
      show (d - e + e) :: (quotient m k).product k = d :: m
      rw [Nat.sub_add_cancel hed, ih (Nat.succ.inj hlen) h]

/-- Division undoes the multiplication. -/
theorem quotient_product {m k : Monomial} (hlen : m.length = k.length) :
    (m.product k).quotient k = m := by
  induction m generalizing k with
  | nil => rfl
  | cons d m ih =>
    cases k with
    | nil => cases hlen
    | cons e k =>
      show (d + e - e) :: quotient (product m k) k = d :: m
      rw [Nat.add_sub_cancel, ih (Nat.succ.inj hlen)]

/-- Exponents of a product are sums. -/
theorem getD_product {m k : Monomial} (hlen : m.length = k.length) (i : Nat) :
    (m.product k).getD i 0 = m.getD i 0 + k.getD i 0 := by
  -- along the exponents, with the position counted down
  induction m generalizing k i with
  | nil =>
    rw [List.length_eq_zero_iff.mp hlen.symm]
    rfl
  | cons d m ih =>
    cases k with
    | nil => cases hlen
    | cons e k =>
      cases i with
      | zero => rfl
      | succ i => exact ih (Nat.succ.inj hlen) i

/-- Exponents of a quotient are differences, and not below 0. -/
theorem getD_quotient {m k : Monomial} (hlen : m.length = k.length) (i : Nat) :
    (m.quotient k).getD i 0 = m.getD i 0 - k.getD i 0 := by
  induction m generalizing k i with
  | nil => simp [quotient]
  | cons d m ih =>
    cases k with
    | nil => cases hlen
    | cons e k =>
      cases i with
      | zero => rfl
      | succ i => exact ih (Nat.succ.inj hlen) i

/-- Division by a common divisor keeps the order. -/
theorem quotient_lt_quotient {m m' k : Monomial} (hlen : m.length = k.length)
    (hlen' : m'.length = k.length) (h : k.Divides m) (h' : k.Divides m') (hlt : m < m') :
    m.quotient k < m'.quotient k := by
  induction k generalizing m m' with
  | nil =>
    rw [List.length_eq_zero_iff.mp hlen, List.length_eq_zero_iff.mp hlen'] at hlt
    exact absurd hlt (List.lt_irrefl _)
  | cons e k ih =>
    cases m with
    | nil => cases hlen
    | cons d m =>
      cases m' with
      | nil => cases hlen'
      | cons d' m' =>
        obtain ⟨hed, hk⟩ := divides_cons.mp h
        obtain ⟨hed', hk'⟩ := divides_cons.mp h'
        show (d - e) :: quotient m k < (d' - e) :: quotient m' k
        -- the first exponents differ before exactly if they differ afterwards
        rw [List.cons_lt_cons_iff] at hlt ⊢
        rcases hlt with hdd | ⟨rfl, hlt⟩
        · exact Or.inl (by omega)
        · exact Or.inr ⟨rfl, ih (Nat.succ.inj hlen) (Nat.succ.inj hlen') hk hk' hlt⟩

/-- Quotients of well-formed monomials are well-formed, for exponents only become smaller. -/
theorem WellFormed.quotient {n : Nat} {m k : Monomial} (hm : m.WellFormed n)
    (hk : k.length = n) : (m.quotient k).WellFormed n where
  length := by rw [length_quotient (hm.length.trans hk.symm), hk]
  le_max e he := by
    obtain ⟨i, hi, rfl⟩ := List.mem_iff_getElem.mp he
    simp only [Monomial.quotient, List.getElem_zipWith]
    exact Nat.le_trans (Nat.sub_le ..) (hm.le_max _ (List.getElem_mem _))

/-! ## Common divisors -/

/-- Exponents of a greatest common divisor are minima. -/
theorem getD_gcd (m k : Monomial) (i : Nat) :
    (m.gcd k).getD i 0 = min (m.getD i 0) (k.getD i 0) := by
  induction m generalizing k i with
  | nil => simp [gcd]
  | cons d m ih =>
    cases k with
    | nil => simp [gcd]
    | cons e k =>
      cases i with
      | zero => rfl
      | succ i => exact ih k i

theorem length_gcd {m k : Monomial} (h : m.length = k.length) : (m.gcd k).length = m.length := by
  rw [gcd, List.length_zipWith, h, Nat.min_self]

/-- **A common divisor**: it divides both. -/
theorem gcd_divides (m k : Monomial) : (m.gcd k).Divides m ∧ (m.gcd k).Divides k := by
  refine ⟨fun i => ?_, fun i => ?_⟩
  · rw [getD_gcd]
    exact Nat.min_le_left ..
  · rw [getD_gcd]
    exact Nat.min_le_right ..

/-- Without the greatest common divisor, two monomials have no parameter in common. -/
theorem disjoint_quotient_gcd {m k : Monomial} (h : m.length = k.length) (i : Nat) :
    (m.quotient (m.gcd k)).getD i 0 = 0 ∨ (k.quotient (m.gcd k)).getD i 0 = 0 := by
  have hlen := length_gcd h
  rw [getD_quotient hlen.symm, getD_quotient (h.symm.trans hlen.symm), getD_gcd]
  omega

/-- The test for 1 finds the monomials without an exponent other than 0. -/
theorem isOne_iff {m : Monomial} : m.isOne = true ↔ ∀ i, m.getD i 0 = 0 := by
  simp only [isOne, List.all_eq_true, beq_iff_eq]
  constructor
  · intro h i
    rw [List.getD_eq_getElem?_getD]
    cases hi : m[i]? with
    | none => rfl
    | some e => exact h e (List.mem_of_getElem? hi)
  · intro h e he
    obtain ⟨i, hi, rfl⟩ := List.mem_iff_getElem.mp he
    rw [← h i, List.getD_eq_getElem?_getD, List.getElem?_eq_getElem hi, Option.getD_some]

/-- The divisors of the largest common divisor of a list are the common divisors of the list. -/
theorem foldl_gcd_getD_le (ts : List Term) (m : Monomial) (i : Nat) :
    (ts.foldl (fun m s => m.gcd s.1) m).getD i 0 ≤ m.getD i 0 ∧
      ∀ t ∈ ts, (ts.foldl (fun m s => m.gcd s.1) m).getD i 0 ≤ t.1.getD i 0 := by
  induction ts generalizing m with
  | nil => exact ⟨Nat.le_refl _, by simp⟩
  | cons t ts ih =>
    -- what comes out is at most the minimum after the first step
    obtain ⟨hm, hts⟩ := ih (m.gcd t.1)
    rw [getD_gcd] at hm
    rw [List.foldl_cons]
    refine ⟨by omega, fun s hs => ?_⟩
    rcases List.mem_cons.mp hs with rfl | hs
    · omega
    · exact hts s hs

/-- Each exponent of the largest common divisor is that of one of the monomials. -/
theorem exists_getD_eq_foldl_gcd (ts : List Term) (m : Monomial) (i : Nat) :
    (ts.foldl (fun m s => m.gcd s.1) m).getD i 0 = m.getD i 0 ∨
      ∃ t ∈ ts, (ts.foldl (fun m s => m.gcd s.1) m).getD i 0 = t.1.getD i 0 := by
  induction ts generalizing m with
  | nil => exact Or.inl rfl
  | cons t ts ih =>
    rw [List.foldl_cons]
    -- the exponent comes from a later monomial or from the divisor of the first two
    rcases ih (m.gcd t.1) with h | ⟨s, hs, h⟩
    · rw [getD_gcd] at h
      rcases Nat.le_total (m.getD i 0) (t.1.getD i 0) with hle | hle
      · rw [Nat.min_eq_left hle] at h
        exact Or.inl h
      · rw [Nat.min_eq_right hle] at h
        exact Or.inr ⟨t, List.mem_cons_self .., h⟩
    · exact Or.inr ⟨s, List.mem_cons_of_mem _ hs, h⟩

/-- Common divisors of monomials of one length have this length. -/
theorem length_foldl_gcd {ts : List Term} {m : Monomial} (h : ∀ t ∈ ts, t.1.length = m.length) :
    (ts.foldl (fun m s => m.gcd s.1) m).length = m.length := by
  induction ts generalizing m with
  | nil => rfl
  | cons t ts ih =>
    obtain ⟨ht, hts⟩ := List.forall_mem_cons.mp h
    have hgcd := length_gcd ht.symm
    rw [List.foldl_cons, ih fun s hs => (hts s hs).trans hgcd.symm, hgcd]

end Monomial

namespace Terms

/-- A coefficient after all others is put at the end. -/
theorem alter_of_lt {ts : List Term} {m : Monomial} (h : ∀ t ∈ ts, t.1 < m) (f : Rat → Rat) :
    alter m f ts = ts ++ consNonzero m (f 0) [] := by
  induction ts with
  | nil => rfl
  | cons t ts ih =>
    obtain ⟨ht, hts⟩ := List.forall_mem_cons.mp h
    rw [alter, if_pos ht, ih hts, List.cons_append]

end Terms

namespace Polynomial

variable {n : Nat} {p q : Polynomial}

/-! ## The content -/

/-- **The content divides every term.** -/
theorem content_divides {t : Term} (ht : t ∈ p.terms) : p.content.Divides t.1 := by
  intro i
  unfold content
  split
  · rename_i hp
    rw [hp] at ht
    cases ht
  · -- it starts with the first monomial and takes the minimum with each of the others
    rename_i s ss hp
    obtain ⟨hs, hss⟩ := Monomial.foldl_gcd_getD_le ss s.1 i
    rw [hp] at ht
    rcases List.mem_cons.mp ht with rfl | ht
    · exact hs
    · exact hss t ht

/-- Each exponent of the content is that of some term. -/
theorem exists_getD_eq_content (hp : p.isZero = false) (i : Nat) :
    ∃ t ∈ p.terms, t.1.getD i 0 = p.content.getD i 0 := by
  unfold content
  split
  · rename_i hterms
    exact absurd hterms (terms_ne_nil hp)
  · rename_i s ss hterms
    rw [hterms]
    -- the minimum is that of the first term or of a later one
    rcases Monomial.exists_getD_eq_foldl_gcd ss s.1 i with h | ⟨t, ht, h⟩
    · exact ⟨s, List.mem_cons_self .., h.symm⟩
    · exact ⟨t, List.mem_cons_of_mem _ ht, h.symm⟩

/-- The content has an exponent for each parameter, also that of the polynomial 0. -/
theorem WellFormed.length_content (hp : p.WellFormed n) : p.content.length = n := by
  unfold content
  split
  · rw [hp.numVars]
    exact (Monomial.wellFormed_one n).length
  · rename_i s ss hterms
    have hlength (t : Term) (ht : t ∈ s :: ss) : t.1.length = n :=
      (hp.monomial t (hterms ▸ ht)).length
    obtain ⟨hs, hss⟩ := List.forall_mem_cons.mp hlength
    rw [Monomial.length_foldl_gcd fun t ht => (hss t ht).trans hs.symm, hs]

/-! ## Division -/

/-- Entries that come in order are the terms. -/
theorem terms_foldl_alter {ts : List Term} (hs : Terms.Sorted (p.terms ++ ts))
    (hn : Terms.Nonzero ts) :
    (ts.foldl (fun p t => p.alter t.1 fun _ => t.2) p).terms = p.terms ++ ts := by
  -- on the entries that are left; those before are the terms of `p` by now
  induction ts generalizing p with
  | nil => exact (List.append_nil _).symm
  | cons t ts ih =>
    obtain ⟨ht, hts⟩ := List.forall_mem_cons.mp hn
    have hlt (s : Term) (hmem : s ∈ p.terms) : s.1 < t.1 :=
      (List.pairwise_append.mp hs).2.2 s hmem t (List.mem_cons_self ..)
    have hterms : (p.alter t.1 fun _ => t.2).terms = p.terms ++ [t] := by
      show Terms.alter t.1 (fun _ => t.2) p.terms = _
      rw [Terms.alter_of_lt hlt, Terms.consNonzero, if_neg ht]
    rw [List.foldl_cons, ih _ hts, hterms, List.append_assoc, List.singleton_append]
    rw [hterms, List.append_assoc, List.singleton_append]
    exact hs

/-- The terms with their monomials divided by `m`, as far as both go. -/
def monomialQuotients (p : Polynomial) (m : Monomial) : List Term :=
  p.terms.map fun t => (t.1.quotient m, t.2)

/-- **The quotient by a monomial** of any length fails when the monomial of some term does not
cover it. -/
theorem divideByMonomial_eq_ite (p : Polynomial) (m : Monomial) :
    p.divideByMonomial m = if ∀ t ∈ p.terms, t.1.Covers m then
      .ok (ofEntries p.numVars (p.monomialQuotients m)) else .error .exponentUnderflow := by
  have hstep (t : Term) : (do return (← t.1.div m, t.2)) = if t.1.Covers m then
      Except.ok (t.1.quotient m, t.2) else .error Fault.exponentUnderflow := by
    rw [Monomial.div_eq_ite]
    split <;> rfl
  rw [divideByMonomial, quotients, Failing.mapM_ite hstep]
  split <;> rfl

/-- Division succeeds if all terms are divisible, and collects the quotients. -/
theorem divideByMonomial_eq_ok_iff {m : Monomial} : p.divideByMonomial m = .ok q ↔
    (∀ t ∈ p.terms, t.1.Covers m) ∧ q = ofEntries p.numVars (p.monomialQuotients m) := by
  rw [divideByMonomial_eq_ite]
  split
  · rename_i hcovers
    exact ⟨fun h => ⟨hcovers, (Except.ok.inj h).symm⟩, fun h => by rw [h.2]⟩
  · rename_i hcovers
    exact ⟨fun h => (by cases h), fun h => absurd h.1 hcovers⟩

/-- Division fails at a term that is not divisible, always with the same fault. -/
theorem divideByMonomial_eq_error_iff {m : Monomial} {e : Fault} : p.divideByMonomial m = .error e ↔
    (∃ t ∈ p.terms, ¬t.1.Covers m) ∧ e = .exponentUnderflow := by
  rw [divideByMonomial_eq_ite]
  split
  · rename_i hcovers
    exact ⟨fun h => (by cases h), fun ⟨⟨t, ht, hnot⟩, _⟩ => absurd (hcovers t ht) hnot⟩
  · rename_i hcovers
    simp only [not_forall, exists_prop] at hcovers
    exact ⟨fun h => ⟨hcovers, (Except.error.inj h).symm⟩, fun h => by rw [h.2]⟩

theorem numVars_of_divideByMonomial {m : Monomial} (h : p.divideByMonomial m = .ok q) :
    q.numVars = p.numVars := by
  rw [(divideByMonomial_eq_ok_iff.mp h).2]
  exact numVars_foldl_alter (fun t _ => t.2) _ (zero p.numVars)

/-- **The quotient by a common divisor** has the quotients of the terms. -/
theorem divideByMonomial_eq (hp : p.WellFormed n) {m : Monomial} (hm : m.length = n)
    (hdiv : ∀ t ∈ p.terms, m.Divides t.1) :
    ∃ q, p.divideByMonomial m = .ok q ∧ q.WellFormed n ∧
      q.terms = p.terms.map fun t => (t.1.quotient m, t.2) := by
  have hlength (t : Term) (ht : t ∈ p.terms) : t.1.length = m.length :=
    (hp.monomial t ht).length.trans hm.symm
  have hcovers (t : Term) (ht : t ∈ p.terms) : t.1.Covers m :=
    (Monomial.covers_iff (hlength t ht)).mpr (hdiv t ht)
  -- the quotients are in the order of the terms
  have hsorted : Terms.Sorted (p.monomialQuotients m) := by
    refine List.pairwise_map.mpr (p.sorted.imp_of_mem fun {s t} hs ht hst => ?_)
    exact Monomial.quotient_lt_quotient (hlength s hs) (hlength t ht) (hdiv s hs) (hdiv t ht) hst
  have hnonzero : Terms.Nonzero (p.monomialQuotients m) := by
    intro t ht
    obtain ⟨s, hs, rfl⟩ := List.mem_map.mp ht
    exact p.nonzero s hs
  refine ⟨_, divideByMonomial_eq_ok_iff.mpr ⟨hcovers, rfl⟩, ?_,
    terms_foldl_alter (p := zero p.numVars) hsorted hnonzero⟩
  rw [hp.numVars]
  refine (wellFormed_zero n).foldl_alter (fun t _ => t.2) fun t ht => ?_
  obtain ⟨s, hs, rfl⟩ := List.mem_map.mp ht
  exact (hp.monomial s hs).quotient hm

/-- Division makes no exponent larger. -/
theorem SmallExponents.of_quotients (hp : p.SmallExponents) {m : Monomial}
    (hq : q.terms = p.terms.map fun t => (t.1.quotient m, t.2)) : q.SmallExponents := by
  intro t ht e he
  rw [hq] at ht
  obtain ⟨s, hs, rfl⟩ := List.mem_map.mp ht
  obtain ⟨i, hi, rfl⟩ := List.mem_iff_getElem.mp he
  rw [Monomial.quotient, List.length_zipWith] at hi
  obtain ⟨his, -⟩ := Nat.lt_min.mp hi
  have hd := hp s hs s.1[i] (List.getElem_mem _)
  simp only [Monomial.quotient, List.getElem_zipWith]
  omega

end Polynomial

end FunctionCache
