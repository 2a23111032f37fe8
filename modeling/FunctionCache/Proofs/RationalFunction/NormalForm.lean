import FunctionCache.Proofs.RationalFunction.Closure
import FunctionCache.Proofs.RationalFunction.Identification

/-!
# The normal form of rational functions

Normalising a fraction of well-formed polynomials with a nonzero denominator
always succeeds. It takes the same factor out of both parts, and what is left is
in normal form. This is all that is needed of it later on:

* `NormalFraction` — the normal form;
* `Reduces` — a fraction and its normal form;
* `RationalFunction.ofFraction_eq` — normalising reduces a fraction;
* `RationalFunction.ofFraction_identified` — and keeps it the same up to monomials, unless it is
  constant;
* `Engine.Constructible` — the functions that can be made from well-formed
  polynomials;
* `Engine.constructible_inNormalForm` — all of them are in normal form.
-/

namespace FunctionCache

/-- No parameter divides all terms of both polynomials. -/
def Polynomial.NoCommonParameter (p q : Polynomial) : Prop :=
  ∀ i, ∃ t, (t ∈ p.terms ∨ t ∈ q.terms) ∧ t.1.getD i 0 = 0

/-- `p` over `q` is in normal form. -/
structure NormalFraction (n : ℕ) (p q : Polynomial) : Prop where
  numerator : p.WellFormed n
  denominator : q.WellFormed n
  ne_zero : q.isZero = false
  -- constants
  of_isZero : p.isZero = true → q = Polynomial.one n
  of_isConstant : q.isConstant = true → q = Polynomial.one n
  -- denominators that are no constants
  leadingCoeff : q.isConstant = false → q.leadingCoeff? = some 1
  noCommonParameter : q.isConstant = false → p.NoCommonParameter q
  not_multiple : q.isConstant = false → ∀ r, p ≠ q.scale r

/-- `p'` over `q'` is a normal form of `p` over `q`: both parts have lost the same factor, and no
exponent has become large. -/
structure Reduces (n : ℕ) (p q p' q' : Polynomial) : Prop where
  normal : NormalFraction n p' q'
  factor : ∃ k, p.toMvPolynomial = k * p'.toMvPolynomial ∧ q.toMvPolynomial = k * q'.toMvPolynomial
  small : p.SmallExponents → q.SmallExponents → p'.SmallExponents ∧ q'.SmallExponents

section

variable {n : ℕ} {p q p' q' : Polynomial}

/-! ## Fractions over 1 -/

/-- Polynomials over 1 are in normal form. -/
theorem normalFraction_one (hp : p.WellFormed n) : NormalFraction n p (Polynomial.one n) where
  numerator := hp
  denominator := Polynomial.wellFormed_one n
  ne_zero := Polynomial.isZero_one n
  of_isZero _ := rfl
  of_isConstant _ := rfl
  -- the rest is about denominators that are not constant
  leadingCoeff h := by cases (Polynomial.isConstant_constant n 1).symm.trans h
  noCommonParameter h := by cases (Polynomial.isConstant_constant n 1).symm.trans h
  not_multiple h := by cases (Polynomial.isConstant_constant n 1).symm.trans h

/-- The function 0 is the normal form of 0 over anything: the denominator is the factor. -/
theorem reduces_zero (hp : p.WellFormed n) (hp0 : p.isZero = true) :
    Reduces n p q p (Polynomial.one n) where
  normal := normalFraction_one hp
  factor := by
    have hzero := hp.toMvPolynomial_eq_zero_iff.mpr hp0
    exact ⟨q.toMvPolynomial, by rw [hzero, mul_zero], by simp⟩
  small hp _ := ⟨hp, Polynomial.smallExponents_constant n 1⟩

/-- A constant denominator is the factor that both parts lose. -/
theorem reduces_overConstant (hp : p.WellFormed n) {c : ℚ} (hc : c ≠ 0) :
    Reduces n p (Polynomial.constant n c) (p.scale c⁻¹) (Polynomial.one n) where
  normal := normalFraction_one (hp.scale _)
  factor := ⟨MvPolynomial.C c, p.toMvPolynomial_scale_inv hc, by simp⟩
  small hp _ := ⟨hp.scale _, Polynomial.smallExponents_constant n 1⟩

/-- A multiple of the denominator loses all of it. -/
theorem reduces_multiple (r : ℚ) :
    Reduces n (q.scale r) q (Polynomial.constant n r) (Polynomial.one n) where
  normal := normalFraction_one (Polynomial.wellFormed_constant n r)
  factor := ⟨q.toMvPolynomial, by simp [mul_comm], by simp⟩
  small _ _ := ⟨Polynomial.smallExponents_constant n r, Polynomial.smallExponents_constant n 1⟩

/-! ## Common factors -/

/-- `p'` and `q'` are `p` and `q` without the monomials that divide both. -/
structure Cancels (n : ℕ) (p q p' q' : Polynomial) : Prop where
  numerator : p'.WellFormed n
  denominator : q'.WellFormed n
  noCommonParameter : p'.NoCommonParameter q'
  factor : ∃ k, p.toMvPolynomial = k * p'.toMvPolynomial ∧ q.toMvPolynomial = k * q'.toMvPolynomial
  small : p.SmallExponents → q.SmallExponents → p'.SmallExponents ∧ q'.SmallExponents

/-- What is left after cancelling can be reduced instead. -/
theorem Cancels.reduces {p₀ q₀ : Polynomial} (h : Cancels n p₀ q₀ p q)
    (hreduces : Reduces n p q p' q') : Reduces n p₀ q₀ p' q' where
  normal := hreduces.normal
  factor := by
    obtain ⟨k, hk, hk'⟩ := h.factor
    obtain ⟨l, hl, hl'⟩ := hreduces.factor
    exact ⟨k * l, by rw [hk, hl, mul_assoc], by rw [hk', hl', mul_assoc]⟩
  small hp hq := by
    obtain ⟨hp', hq'⟩ := h.small hp hq
    exact hreduces.small hp' hq'

/-- **Common monomials** can always be cancelled. -/
theorem cancelMonomials_eq (hp : p.WellFormed n) (hq : q.WellFormed n) (hp0 : p.isZero = false)
    (hq0 : q.isZero = false) :
    ∃ p' q', RationalFunction.cancelMonomials p q = .ok (p', q') ∧ Cancels n p q p' q' ∧
      SameUpToMonomials (Monomial.OfLength n) p q p' q' := by
  have hlength : (p.content.gcd q.content).length = n := by
    rw [Monomial.length_gcd (hp.length_content.trans hq.length_content.symm), hp.length_content]
  -- the common divisor has each of its exponents from a term of one of them
  have hattained (i : ℕ) : ∃ t, (t ∈ p.terms ∨ t ∈ q.terms) ∧
      t.1.getD i 0 = (p.content.gcd q.content).getD i 0 := by
    obtain ⟨s, hs, hsi⟩ := Polynomial.exists_getD_eq_content hp0 i
    obtain ⟨t, ht, hti⟩ := Polynomial.exists_getD_eq_content hq0 i
    rw [Monomial.getD_gcd]
    rcases Nat.le_total (p.content.getD i 0) (q.content.getD i 0) with hle | hle
    · exact ⟨s, Or.inl hs, by rw [hsi, Nat.min_eq_left hle]⟩
    · exact ⟨t, Or.inr ht, by rw [hti, Nat.min_eq_right hle]⟩
  unfold RationalFunction.cancelMonomials
  dsimp only
  split
  · -- the greatest common divisor is 1: nothing is cancelled
    rename_i hone
    refine ⟨p, q, rfl, ⟨hp, hq, fun i => ?_, ⟨1, by rw [one_mul], by rw [one_mul]⟩, And.intro⟩,
      .refl n p q⟩
    obtain ⟨t, ht, hti⟩ := hattained i
    exact ⟨t, ht, hti.trans (Monomial.isOne_iff.mp hone i)⟩
  · obtain ⟨hdp, hdq⟩ := Monomial.gcd_divides p.content q.content
    have hdivp (t : Term) (ht : t ∈ p.terms) : (p.content.gcd q.content).Divides t.1 :=
      fun i => (hdp i).trans (Polynomial.content_divides ht i)
    have hdivq (t : Term) (ht : t ∈ q.terms) : (p.content.gcd q.content).Divides t.1 :=
      fun i => (hdq i).trans (Polynomial.content_divides ht i)
    obtain ⟨p', hp', hwp', htp'⟩ := Polynomial.divideByMonomial_eq hp hlength hdivp
    obtain ⟨q', hq', hwq', htq'⟩ := Polynomial.divideByMonomial_eq hq hlength hdivq
    have hfp := hp.toMvPolynomial_eq_mul hlength hdivp htp'
    have hfq := hq.toMvPolynomial_eq_mul hlength hdivq htq'
    refine ⟨p', q', by rw [hp', hq']; rfl, ⟨hwp', hwq', fun i => ?_, ⟨_, hfp, hfq⟩,
      fun hsp hsq => ⟨hsp.of_quotients htp', hsq.of_quotients htq'⟩⟩,
      .of_factor hlength one_ne_zero hfp hfq⟩
    -- the quotient of the term that attains the minimum lacks the parameter
    obtain ⟨t, ht, hti⟩ := hattained i
    refine ⟨(t.1.quotient (p.content.gcd q.content), t.2), ?_, ?_⟩
    · rw [htp', htq']
      exact ht.imp (List.mem_map_of_mem (f := _)) (List.mem_map_of_mem (f := _))
    · have hlen : t.1.length = (p.content.gcd q.content).length := by
        rw [hlength]
        exact ht.elim (fun h => (hp.monomial t h).length) fun h => (hq.monomial t h).length
      rw [Monomial.getD_quotient hlen, hti, Nat.sub_self]

/-- Cancelling makes no multiples of the denominator. -/
theorem Cancels.not_multiple (h : Cancels n p q p' q') (hp : p.WellFormed n) (hq : q.WellFormed n)
    (hpq : ∀ r, p ≠ q.scale r) (r : ℚ) : p' ≠ q'.scale r := by
  rintro rfl
  -- the cancelled factor can be put back on both sides
  obtain ⟨k, hk, hk'⟩ := h.factor
  refine hpq r (hp.eq_of_toMvPolynomial_eq (hq.scale r) ?_)
  rw [hk, Polynomial.toMvPolynomial_scale, Polynomial.toMvPolynomial_scale, hk']
  ring

/-! ## The leading coefficient -/

theorem Polynomial.NoCommonParameter.scale {c : ℚ} (hc : c ≠ 0) (h : p.NoCommonParameter q) :
    (p.scale c).NoCommonParameter (q.scale c) := by
  intro i
  obtain ⟨t, ht, hti⟩ := h i
  refine ⟨(t.1, t.2 * c), ?_, hti⟩
  rw [Polynomial.terms_scale p hc, Polynomial.terms_scale q hc]
  exact ht.imp (List.mem_map_of_mem (f := _)) (List.mem_map_of_mem (f := _))

/-- A multiple is one whatever both polynomials are divided by. -/
theorem eq_scale_of_scale_inv (hp : p.WellFormed n) (hq : q.WellFormed n) {c r : ℚ} (hc : c ≠ 0)
    (h : p.scale c⁻¹ = (q.scale c⁻¹).scale r) : p = q.scale r := by
  refine hp.eq_of_toMvPolynomial_eq (hq.scale r) ?_
  calc p.toMvPolynomial
      = MvPolynomial.C c * ((q.scale c⁻¹).scale r).toMvPolynomial := by
        rw [p.toMvPolynomial_scale_inv hc, h]
    _ = MvPolynomial.C r * (MvPolynomial.C c * (q.scale c⁻¹).toMvPolynomial) := by
        rw [Polynomial.toMvPolynomial_scale (q.scale c⁻¹) r]
        ring
    _ = (q.scale r).toMvPolynomial := by
        rw [← q.toMvPolynomial_scale_inv hc, Polynomial.toMvPolynomial_scale]

/-- What has no common monomial any more is in normal form once the denominator leads with 1. -/
theorem reduces_scale (hp : p.WellFormed n) (hq : q.WellFormed n) (hp0 : p.isZero = false)
    (hq0 : q.isZero = false) (hcommon : p.NoCommonParameter q) (hpq : ∀ r, p ≠ q.scale r)
    (hconstant : q.isConstant = false) :
    ∃ c, q.leadingCoeff? = some c ∧ c ≠ 0 ∧ Reduces n p q (p.scale c⁻¹) (q.scale c⁻¹) := by
  obtain ⟨c, hlead, hc, hone⟩ := Polynomial.exists_leadingCoeff hq0
  have hc' := inv_ne_zero hc
  -- dividing by the leading coefficient makes neither part 0, nor the denominator constant
  have hp0' : (p.scale c⁻¹).isZero = false := (Polynomial.isZero_scale hc').trans hp0
  have hq0' : (q.scale c⁻¹).isZero = false := (Polynomial.isZero_scale hc').trans hq0
  have hconstant' : (q.scale c⁻¹).isConstant = false :=
    (Polynomial.isConstant_scale hc').trans hconstant
  have hnormal : NormalFraction n (p.scale c⁻¹) (q.scale c⁻¹) :=
    { numerator := hp.scale _
      denominator := hq.scale _
      ne_zero := hq0'
      of_isZero := fun h => by cases hp0'.symm.trans h
      of_isConstant := fun h => by cases hconstant'.symm.trans h
      leadingCoeff := fun _ => hone
      noCommonParameter := fun _ => hcommon.scale hc'
      not_multiple := fun _ r h => hpq r (eq_scale_of_scale_inv hp hq hc h) }
  exact ⟨c, hlead, hc, hnormal, ⟨MvPolynomial.C c, p.toMvPolynomial_scale_inv hc,
    q.toMvPolynomial_scale_inv hc⟩, fun hp hq => ⟨hp.scale _, hq.scale _⟩⟩

/-! ## Normalising -/

/-- Only 0 leaves 0 when a factor is taken out. -/
theorem isZero_of_factor {k : MvPolynomial ℕ ℚ} (hp : p.WellFormed n) (hp' : p'.WellFormed n)
    (h : p.toMvPolynomial = k * p'.toMvPolynomial) (hp0 : p.isZero = false) :
    p'.isZero = false := by
  by_contra hne
  rw [Bool.not_eq_false, ← hp'.toMvPolynomial_eq_zero_iff] at hne
  rw [hne, mul_zero, hp.toMvPolynomial_eq_zero_iff, hp0] at h
  cases h

/-- **Normalising** a fraction with a nonzero denominator succeeds. It reduces the fraction, and
takes nothing but a monomial and a constant out of both parts unless the fraction is constant. -/
theorem RationalFunction.ofFraction_identified (hp : p.WellFormed n) (hq : q.WellFormed n)
    (hq0 : q.isZero = false) :
    ∃ p' q', ofFraction p q = .ok (fraction p' q') ∧ Reduces n p q p' q' ∧
      Identified n (Monomial.OfLength n) p q p' q' := by
  have hover {r : Polynomial} (hr : r.WellFormed n) (c : ℚ) :
      overConstant r c = fraction (r.scale c⁻¹) (Polynomial.one n) := by
    rw [overConstant, ofPolynomial, hr.numVars]
  have hne {r : Polynomial} {c : ℚ} (hr : r = Polynomial.constant n c) (hr0 : r.isZero = false) :
      c ≠ 0 := by
    rintro rfl
    rw [hr, Polynomial.constant_zero] at hr0
    cases hr0
  unfold ofFraction
  rw [if_neg (by simp [hq0])]
  by_cases hp0 : p.isZero = true
  · rw [if_pos hp0, ofPolynomial, hp.numVars]
    have hpz := hp.isZero_iff.mp hp0
    exact ⟨p, _, rfl, reduces_zero hp hp0, .zero hpz hpz⟩
  rw [if_neg hp0]
  rw [Bool.not_eq_true] at hp0
  have hratio {r : ℚ} := Polynomial.ratioTo?_eq_some_iff (r := r) (hp.numVars.trans hq.numVars.symm)
  cases hc : q.constantValue? with
  | some c =>
    -- the denominator is a constant
    have hqc := hq.constantValue?_eq_some_iff.mp hc
    refine ⟨_, _, congrArg Except.ok (hover hp c), ?_⟩
    rw [hqc]
    have hc0 := hne hqc hq0
    exact ⟨reduces_overConstant hp hc0, .monomials (.overConstant n p hc0)⟩
  | none =>
    cases hr : p.ratioTo? q with
    | some r =>
      -- the numerator is a multiple of the denominator
      obtain ⟨-, hpq⟩ := hratio.mp hr
      refine ⟨Polynomial.constant n r, Polynomial.one n, ?_, hpq ▸ reduces_multiple r, ?_⟩
      · rw [hp.numVars]
        rfl
      · refine .of_multiple hq (Polynomial.wellFormed_one n) hpq ?_
        rw [Polynomial.one, Polynomial.scale_constant, one_mul]
    | none =>
      have hpq (r : ℚ) (h : p = q.scale r) : False := by
        rw [hratio.mpr ⟨hp0, h⟩] at hr
        cases hr
      obtain ⟨p', q', hcancel, hcancels, hsame⟩ := cancelMonomials_eq hp hq hp0 hq0
      obtain ⟨k, hk, hk'⟩ := hcancels.factor
      have hp0' := isZero_of_factor hp hcancels.numerator hk hp0
      have hq0' := isZero_of_factor hq hcancels.denominator hk' hq0
      simp only [hcancel, Failing.lift_ok, Failing.ok_bind]
      cases hc' : q'.constantValue? with
      | some c =>
        -- only monomials were left in the denominator
        have hqc := hcancels.denominator.constantValue?_eq_some_iff.mp hc'
        have hc0 := hne hqc hq0'
        refine ⟨_, _, congrArg Except.ok (hover hcancels.numerator c), hcancels.reduces ?_,
          .monomials (hsame.trans ?_)⟩
        · rw [hqc]
          exact reduces_overConstant hcancels.numerator hc0
        · rw [hqc]
          exact .overConstant n p' hc0
      | none =>
        obtain ⟨c, hlead, hc0, hreduces⟩ := reduces_scale hcancels.numerator hcancels.denominator
          hp0' hq0' hcancels.noCommonParameter (hcancels.not_multiple hp hq hpq)
          (Polynomial.constantValue?_eq_none_iff.mp hc')
        refine ⟨_, _, ?_, hcancels.reduces hreduces,
          .monomials (hsame.trans (.scale_inv n p' q' hc0))⟩
        rw [hlead]
        rfl

/-- **Normalising reduces** every fraction whose denominator is not 0. -/
theorem RationalFunction.ofFraction_eq (hp : p.WellFormed n) (hq : q.WellFormed n)
    (hq0 : q.isZero = false) :
    ∃ p' q', ofFraction p q = .ok (fraction p' q') ∧ Reduces n p q p' q' := by
  obtain ⟨p', q', hf, hreduces, -⟩ := ofFraction_identified hp hq hq0
  exact ⟨p', q', hf, hreduces⟩

end

/-! ## Functions in normal form -/

namespace RationalFunction

variable {n : ℕ} {p q : Polynomial} {f : RationalFunction}

/-- The function is a fraction in normal form or no fraction. -/
def InNormalForm (n : ℕ) : RationalFunction → Prop
  | fraction p q => NormalFraction n p q
  | _ => True

/-- What normalising makes is in normal form. -/
theorem inNormalForm_ofFraction (hp : p.WellFormed n) (hq : q.WellFormed n)
    (h : ofFraction p q = .ok f) : f.InNormalForm n := by
  cases hq0 : q.isZero with
  | true =>
    unfold ofFraction at h
    rw [if_pos hq0] at h
    cases h
  | false =>
    obtain ⟨p', q', hf, hreduces⟩ := ofFraction_eq hp hq hq0
    cases hf.symm.trans h
    exact hreduces.normal

/-- There is one way to write 0. -/
theorem isZero_iff (hf : f.InNormalForm n) : f.isZero = true ↔ f = zero n := by
  constructor
  · intro h
    cases f with
    | fraction p q =>
      -- in normal form 0 has the denominator 1
      rw [hf.numerator.isZero_iff.mp h, hf.of_isZero h]
      rfl
    | nan | posInf | negInf => cases h
  · rintro rfl
    rfl

theorem isZero_eq_false_iff (hf : f.InNormalForm n) : f.isZero = false ↔ f ≠ zero n := by
  rw [← Bool.not_eq_true, isZero_iff hf]

/-- The opposite of a numerator keeps all clauses of the normal form. -/
theorem inNormalForm_neg (h : f.InNormalForm n) : f.neg.InNormalForm n := by
  cases f with
  | nan | posInf | negInf => trivial
  | fraction p q =>
    have hcommon (hq : q.isConstant = false) : p.neg.NoCommonParameter q := by
      intro i
      obtain ⟨t, ht, hti⟩ := h.noCommonParameter hq i
      rcases ht with ht | ht
      · exact ⟨(t.1, -t.2), Or.inl (List.mem_map_of_mem (f := fun t => (t.1, -t.2)) ht), hti⟩
      · exact ⟨t, Or.inr ht, hti⟩
    -- a multiple with the opposite ratio
    have hmultiple {r : ℚ} (hr : p.neg = q.scale r) : p = q.scale (-r) := by
      rw [← p.neg_neg, hr, Polynomial.neg_eq_scale, Polynomial.scale_scale, mul_neg_one]
    exact
      { numerator := h.numerator.neg
        denominator := h.denominator
        ne_zero := h.ne_zero
        of_isZero := fun hp0 => h.of_isZero (p.isZero_neg ▸ hp0)
        of_isConstant := h.of_isConstant
        leadingCoeff := h.leadingCoeff
        noCommonParameter := hcommon
        not_multiple := fun hq _ hr => h.not_multiple hq _ (hmultiple hr) }

/-- The normal form passes from operands to results, along with well-formed polynomials. -/
theorem hereditary_inNormalForm (n : ℕ) :
    Hereditary n (Polynomial.WellFormed n) (InNormalForm n) where
  constant := Polynomial.wellFormed_constant n
  var := Polynomial.wellFormed_of_var
  add := Polynomial.WellFormed.add
  mul hp hq hr := hp.of_mul hq hr
  parts h := ⟨h.numerator, h.denominator⟩
  polynomial := normalFraction_one
  normalized := inNormalForm_ofFraction
  neg := inNormalForm_neg
  nan := trivial
  infinity positive := by cases positive <;> trivial

end RationalFunction

namespace Engine

variable {e : Engine} {f : RationalFunction}

/-- The functions that the engine can make from well-formed polynomials. -/
inductive Constructible (e : Engine) : RationalFunction → Prop
  | constant (c : Constant) : Constructible e (e.constant c)
  | polynomial {p : Polynomial} (hp : p.WellFormed e.numVars) : Constructible e (e.ofPolynomial p)
  | fraction {p q : Polynomial} {f : RationalFunction} (hp : p.WellFormed e.numVars)
    (hq : q.WellFormed e.numVars) (h : RationalFunction.ofFraction p q = .ok f) : Constructible e f
  | compute {op : Operation RationalFunction} {f : RationalFunction}
    (hop : ∀ a ∈ op.operands, Constructible e a) (h : e.compute op = .ok f) : Constructible e f

/-- What results inherit holds of every function that can be made. -/
theorem Constructible.inherits {Q : RationalFunction → Prop} (h : e.Constructible f)
    (hQ : RationalFunction.Hereditary e.numVars (Polynomial.WellFormed e.numVars) Q) : Q f := by
  induction h with
  | constant c => exact hQ.engine_constant c
  | polynomial hp => exact hQ.polynomial hp
  | fraction hp hq h => exact hQ.normalized hp hq h
  | compute _ h ih => exact hQ.compute ih h

/-- **Every function of the engine is in normal form**: it is no fraction, or both parts are
well-formed and the denominator is not 0; it is 1 if the numerator is 0 or if it is constant, and
otherwise its leading coefficient is 1, no parameter divides all terms of both parts, and the
numerator is no constant multiple of the denominator. -/
theorem constructible_inNormalForm (h : e.Constructible f) : f.InNormalForm e.numVars :=
  h.inherits (RationalFunction.hereditary_inNormalForm e.numVars)

/-- In `xy / (4x + 2xy)` the common parameter is cancelled and the denominator made to lead
with 1. -/
theorem quotient_inNormalForm :
    (ofNames ["x", "y"]).Constructible
        (.fraction (.ofTerms 2 [([0, 1], 1/2)]) (.ofTerms 2 [([0, 0], 2), ([0, 1], 1)])) ∧
      RationalFunction.InNormalForm 2
        (.fraction (.ofTerms 2 [([0, 1], 1/2)]) (.ofTerms 2 [([0, 0], 2), ([0, 1], 1)])) := by
  have hp : (Polynomial.ofTerms 2 [([1, 1], 1)]).WellFormed 2 :=
    Polynomial.wellFormed_ofTerms (by decide)
  have hq : (Polynomial.ofTerms 2 [([1, 0], 4), ([1, 1], 2)]).WellFormed 2 :=
    Polynomial.wellFormed_ofTerms (by decide)
  have hf : (ofNames ["x", "y"]).Constructible
      (.fraction (.ofTerms 2 [([0, 1], 1/2)]) (.ofTerms 2 [([0, 0], 2), ([0, 1], 1)])) :=
    .fraction hp hq (by decide +kernel)
  exact ⟨hf, constructible_inNormalForm hf⟩

end Engine

end FunctionCache
