import FunctionCache.Proofs.Polynomial.Exponents
import FunctionCache.Proofs.RationalFunction.Division
import FunctionCache.Proofs.RationalFunction.Values

/-!
# What can go wrong in arithmetic

Arithmetic with functions in normal form makes a function in normal form, unless
an exponent leaves its range on the way. This happens exactly when two of the
polynomials that are multiplied have highest exponents with too large a sum.
There is no other way to fail, but for division by the function 0: denominators
are not 0, so neither are their products.

* `RationalFunction.OverflowsIff` — a result, or an overflow in a given case;
* `RationalFunction.crossProducts`, `straightProducts`, `ownProduct` — the
  polynomials that are multiplied for a sum, a product and a constraint;
* `RationalFunction.overflowsIff_add`, `overflowsIff_mul`, `exists_star` — three of
  the operations;
* `Engine.overflows_of_memoized` — what a memoized operation fails with;
* `Engine.FailsOnlyByOverflow` — all operations;
* `Engine.fails_only_by_overflow` — the result.
-/

namespace FunctionCache

namespace RationalFunction

variable {n : ℕ} {p q : Polynomial} {a b : RationalFunction} {exceeds : Prop}
variable {P : RationalFunction → Prop}

/-! ## Results and overflows -/

/-- In the given case an exponent leaves its range, and in all others there is a result with the
property. -/
def OverflowsIff (exceeds : Prop) (result : Except Failure RationalFunction)
    (P : RationalFunction → Prop) : Prop :=
  exceeds ∧ result = .error (.fault .exponentOverflow) ∨ ¬exceeds ∧ ∃ f, result = .ok f ∧ P f

/-- One of the pairs of polynomials has highest exponents with too large a sum. -/
def Exceeding (pairs : List (Polynomial × Polynomial)) : Prop :=
  ∃ pair ∈ pairs, pair.1.Exceeds pair.2

theorem exceeding_cons {pairs : List (Polynomial × Polynomial)} :
    Exceeding ((p, q) :: pairs) ↔ p.Exceeds q ∨ Exceeding pairs := by
  simp [Exceeding]

theorem not_exceeding_nil : ¬Exceeding [] := by
  rintro ⟨pair, hpair, -⟩
  cases hpair

namespace OverflowsIff

variable {result : Except Failure RationalFunction}

theorem of_ok (hexceeds : ¬exceeds) (h : ∃ f, result = .ok f ∧ P f) :
    OverflowsIff exceeds result P := Or.inr ⟨hexceeds, h⟩

/-- Where no product exceeds the range, there is a result. -/
theorem exists_ok (h : OverflowsIff exceeds result P) (hexceeds : ¬exceeds) :
    ∃ f, result = .ok f ∧ P f := by
  rcases h with ⟨hexceeds', -⟩ | ⟨-, h⟩
  · exact absurd hexceeds' hexceeds
  · exact h

/-- A failure can be nothing but an overflow. -/
theorem eq_overflow (h : OverflowsIff exceeds result P) {x : Failure} (hx : result = .error x) :
    x = .fault .exponentOverflow := by
  rcases h with ⟨-, h⟩ | ⟨-, f, h, -⟩
  · exact Except.error.inj (hx.symm.trans h)
  · cases hx.symm.trans h

/-- A product that is taken first is the first pair. -/
theorem of_mul {pairs : List (Polynomial × Polynomial)}
    {next : Polynomial → Except Failure RationalFunction} (hp : p.WellFormed n)
    (hq : q.WellFormed n)
    (h : ∀ r, p.mul q = .ok r → OverflowsIff (Exceeding pairs) (next r) P) :
    OverflowsIff (Exceeding ((p, q) :: pairs)) (liftM (p.mul q) >>= next) P := by
  cases hmul : p.mul q with
  | ok r =>
    -- the product is there, so its exponents were in range
    have hnot := (hp.fits_iff hq).mp (Polynomial.fits_of_mul hmul)
    rcases h r hmul with ⟨hpairs, hresult⟩ | ⟨hpairs, hresult⟩
    · exact Or.inl ⟨exceeding_cons.mpr (Or.inr hpairs), hresult⟩
    · exact Or.inr ⟨fun h => (exceeding_cons.mp h).elim hnot hpairs, hresult⟩
  | error fault =>
    -- the first multiplication overflows already
    obtain ⟨hfits, rfl⟩ := Polynomial.mul_eq_error_iff.mp hmul
    have hexceeds := not_not.mp (mt (hp.fits_iff hq).mpr hfits)
    exact Or.inl ⟨exceeding_cons.mpr (Or.inl hexceeds), rfl⟩

end OverflowsIff

/-! ## Sums and products -/

/-- The polynomials that are multiplied for a sum: none if there is one denominator. -/
def crossProducts : RationalFunction → RationalFunction → List (Polynomial × Polynomial)
  | fraction p₁ q₁, fraction p₂ q₂ => if q₁ = q₂ then [] else [(p₁, q₂), (p₂, q₁), (q₁, q₂)]
  | _, _ => []

/-- The polynomials that are multiplied for a product. -/
def straightProducts : RationalFunction → RationalFunction → List (Polynomial × Polynomial)
  | fraction p₁ q₁, fraction p₂ q₂ => [(p₁, p₂), (q₁, q₂)]
  | _, _ => []

/-- The polynomials that are multiplied for a constraint. -/
def ownProduct : RationalFunction → List (Polynomial × Polynomial)
  | fraction p q => [(p, q)]
  | _ => []

/-- Normalising does not overflow. -/
theorem exists_ofFraction (hp : p.WellFormed n) (hq : q.WellFormed n) (hq0 : q.isZero = false) :
    ∃ f, ofFraction p q = .ok f ∧ f.InNormalForm n := by
  obtain ⟨p', q', hf, hreduces⟩ := ofFraction_eq hp hq hq0
  exact ⟨_, hf, hreduces.normal⟩

/-- **A sum** of functions in normal form. -/
theorem overflowsIff_add (ha : a.InNormalForm n) (hb : b.InNormalForm n) :
    OverflowsIff (Exceeding (crossProducts a b)) (a.add b) (InNormalForm n) := by
  rcases a with ⟨p₁, q₁⟩ | _ | _ | _ <;> rcases b with ⟨p₂, q₂⟩ | _ | _ | _
  case fraction.fraction =>
    rw [add_fraction, crossProducts]
    split_ifs with hq
    · -- one denominator
      refine .of_ok not_exceeding_nil ?_
      exact exists_ofFraction (ha.numerator.add hb.numerator) ha.denominator ha.ne_zero
    · -- cross products over the product of the denominators
      refine .of_mul ha.numerator hb.denominator fun left hleft => ?_
      refine .of_mul hb.numerator ha.denominator fun right hright => ?_
      refine .of_mul ha.denominator hb.denominator fun below hbelow => ?_
      refine .of_ok not_exceeding_nil (exists_ofFraction (n := n) ?_ ?_ ?_)
      · exact (ha.numerator.of_mul hb.denominator hleft).add
          (hb.numerator.of_mul ha.denominator hright)
      · exact ha.denominator.of_mul hb.denominator hbelow
      · exact ha.denominator.isZero_of_mul hb.denominator hbelow ha.ne_zero hb.ne_zero
  -- a summand that is no fraction leaves NaN or an infinity
  all_goals exact .of_ok not_exceeding_nil ⟨_, rfl, trivial⟩

/-- Functions over one denominator are added without any product. -/
theorem not_exceeding_crossProducts (h : a.denominator? = b.denominator?) :
    ¬Exceeding (crossProducts a b) := by
  rcases a with ⟨p₁, q₁⟩ | _ | _ | _ <;> rcases b with ⟨p₂, q₂⟩ | _ | _ | _
  case fraction.fraction =>
    rw [crossProducts, if_pos (Option.some.inj h)]
    exact not_exceeding_nil
  all_goals exact not_exceeding_nil

/-- **A product** of functions in normal form. -/
theorem overflowsIff_mul (ha : a.InNormalForm n) (hb : b.InNormalForm n) :
    OverflowsIff (Exceeding (straightProducts a b)) (a.mul b) (InNormalForm n) := by
  have hscaled (positive : Bool) (f : RationalFunction) :
      (scaleInfinity positive f).InNormalForm n :=
    (hereditary_inNormalForm n).of_scaleInfinity positive f
  rcases a with ⟨p₁, q₁⟩ | _ | _ | _ <;> rcases b with ⟨p₂, q₂⟩ | _ | _ | _
  case fraction.fraction =>
    rw [mul_fraction, straightProducts]
    refine .of_mul ha.numerator hb.numerator fun above habove => ?_
    refine .of_mul ha.denominator hb.denominator fun below hbelow => ?_
    refine .of_ok not_exceeding_nil (exists_ofFraction (n := n) ?_ ?_ ?_)
    · exact ha.numerator.of_mul hb.numerator habove
    · exact ha.denominator.of_mul hb.denominator hbelow
    · exact ha.denominator.isZero_of_mul hb.denominator hbelow ha.ne_zero hb.ne_zero
  -- an infinity keeps or changes its sign, or leaves NaN
  all_goals first
    | exact .of_ok not_exceeding_nil ⟨_, rfl, trivial⟩
    | exact .of_ok not_exceeding_nil ⟨_, rfl, hscaled ..⟩

/-! ## Quotients, constraints and closures -/

/-- The reciprocal of a function other than 0. -/
theorem exists_reciprocal (hb : b.InNormalForm n) (hne : b.isZero = false) :
    ∃ f, b.reciprocal n = .ok f ∧ f.InNormalForm n := by
  cases b with
  | fraction p q => exact exists_ofFraction hb.denominator hb.numerator hne
  | nan => exact ⟨_, rfl, trivial⟩
  | posInf | negInf =>
    refine ⟨_, rfl, ?_⟩
    rw [zero_eq_constant]
    exact (hereditary_inNormalForm n).of_constant 0

/-- **A quotient** is the product with the reciprocal, which exists. -/
theorem overflowsIff_div (ha : a.InNormalForm n) (hb : b.InNormalForm n) (hne : b.isZero = false) :
    ∃ r, b.reciprocal n = .ok r ∧
      OverflowsIff (Exceeding (straightProducts a r)) (a.div n b) (InNormalForm n) := by
  obtain ⟨r, hr, hnormal⟩ := exists_reciprocal hb hne
  refine ⟨r, hr, ?_⟩
  rw [div_eq hne, hr]
  exact overflowsIff_mul ha hnormal

/-- **Division by zero** is reported for the function 0 only, never on the way. -/
theorem div_eq_divisionByZero_iff (ha : a.InNormalForm n) (hb : b.InNormalForm n) :
    a.div n b = .error (.error .divisionByZero) ↔ b = zero n := by
  rw [← isZero_iff hb]
  constructor
  · intro h
    -- other divisors have a reciprocal, and the product with it can only overflow
    by_contra hne
    obtain ⟨r, -, hdiv⟩ := overflowsIff_div ha hb (Bool.not_eq_true _ ▸ hne)
    cases hdiv.eq_overflow h
  · intro h
    rw [div, if_pos h]
    rfl

/-- The constraint takes one multiplication, of the function's own parts. -/
theorem overflowsIff_toConstraint (ha : a.InNormalForm n) :
    OverflowsIff (Exceeding (ownProduct a)) (a.toConstraint n) (InNormalForm n) := by
  cases a with
  | fraction p q =>
    refine .of_mul ha.numerator ha.denominator fun r hr => .of_ok not_exceeding_nil ⟨_, rfl, ?_⟩
    exact normalFraction_one (ha.numerator.of_mul ha.denominator hr)
  | nan | posInf | negInf => exact .of_ok not_exceeding_nil ⟨_, rfl, trivial⟩

theorem inNormalForm_one (n : ℕ) : (one n).InNormalForm n :=
  (hereditary_inNormalForm n).of_constant 1

/-- The function 1 has no exponents that a sum or product could make larger. -/
theorem not_exceeding_one (ha : a.InNormalForm n) :
    ¬Exceeding (crossProducts (one n) a) ∧ ¬Exceeding (straightProducts (one n) a) := by
  cases a with
  | fraction p q =>
    -- the exponents of the constant 1 are 0
    have hone {r : Polynomial} (hr : r.WellFormed n) : ¬r.Exceeds (Polynomial.one n) :=
      hr.not_exceeds_constant 1
    have hone' {r : Polynomial} (hr : r.WellFormed n) : ¬(Polynomial.one n).Exceeds r :=
      fun h => hone hr (Polynomial.exceeds_comm.mp h)
    have hp := ha.numerator
    have hq := ha.denominator
    rw [one, ofPolynomial, crossProducts, straightProducts]
    constructor
    · split_ifs
      · exact not_exceeding_nil
      · simp only [exceeding_cons, not_exceeding_nil, hone hp, hone' hq, or_self, not_false_eq_true]
    · simp only [exceeding_cons, not_exceeding_nil, hone' hp, hone' hq, or_self, not_false_eq_true]
  | nan | posInf | negInf => exact ⟨not_exceeding_nil, not_exceeding_nil⟩

/-- Nothing overflows in a difference from 1. -/
theorem exists_one_sub (ha : a.InNormalForm n) :
    ∃ f, (one n).sub a = .ok f ∧ f.InNormalForm n :=
  (overflowsIff_add (inNormalForm_one n) (inNormalForm_neg ha)).exists_ok
    (not_exceeding_one (inNormalForm_neg ha)).1

/-- Nothing overflows in a reciprocal. -/
theorem exists_one_div (ha : a.InNormalForm n) (hne : a.isZero = false) :
    ∃ f, (one n).div n a = .ok f ∧ f.InNormalForm n := by
  obtain ⟨r, hr, hnormal⟩ := exists_reciprocal ha hne
  rw [div_eq hne, hr]
  exact (overflowsIff_mul (inNormalForm_one n) hnormal).exists_ok (not_exceeding_one hnormal).2

/-- **A closure** of a function in normal form always exists. -/
theorem exists_star (ha : a.InNormalForm n) : ∃ f, a.star n = .ok f ∧ f.InNormalForm n := by
  obtain ⟨exit, hexit, hnormal⟩ := exists_one_sub ha
  rw [star, hexit, Failing.ok_bind]
  split
  · -- the closure of 1 is infinite
    exact ⟨_, rfl, trivial⟩
  · rename_i hne
    exact exists_one_div hnormal (Bool.not_eq_true _ ▸ hne)

end RationalFunction

namespace Engine

open RationalFunction

variable {e : Engine} {a b : RationalFunction}

/-- **A memoized operation** of the engine on functions in normal form fails by an overflow only. -/
theorem overflows_of_memoized {op : Operation RationalFunction} {m : Memoized} {x : Failure}
    (hm : op.memoized? = some m) (hop : ∀ a ∈ op.operands, a.InNormalForm e.numVars)
    (hx : e.compute op = .error x) : x = .fault .exponentOverflow := by
  cases op with
  | add a b =>
    exact (overflowsIff_add (hop a (by simp [Operation.operands]))
      (hop b (by simp [Operation.operands]))).eq_overflow hx
  | multiply a b =>
    exact (overflowsIff_mul (hop a (by simp [Operation.operands]))
      (hop b (by simp [Operation.operands]))).eq_overflow hx
  | star a =>
    -- closures never fail
    obtain ⟨f, hf, -⟩ := exists_star (hop a (by simp [Operation.operands]))
    cases hx.symm.trans hf
  | parameter | subtract | divide | negate | constraint => cases hm

/-! ## All operations -/

/-- How arithmetic with two functions ends. The result is a function in normal form, unless the
highest exponents of some parameter in two of the polynomials that are multiplied have too large a
sum; then it is the fault of an exponent that leaves its range. -/
structure FailsOnlyByOverflow (e : Engine) (a b : RationalFunction) : Prop where
  add : OverflowsIff (Exceeding (crossProducts a b)) (e.compute (.add a b)) (InNormalForm e.numVars)
  subtract : OverflowsIff (Exceeding (crossProducts a b.neg)) (e.compute (.subtract a b))
    (InNormalForm e.numVars)
  multiply : OverflowsIff (Exceeding (straightProducts a b)) (e.compute (.multiply a b))
    (InNormalForm e.numVars)
  constraint : OverflowsIff (Exceeding (ownProduct a)) (e.compute (.constraint a))
    (InNormalForm e.numVars)
  /-- A function other than 0 has a reciprocal, and dividing by it is multiplying with that. -/
  divide : b ≠ .zero e.numVars → ∃ r, b.reciprocal e.numVars = .ok r ∧
    OverflowsIff (Exceeding (straightProducts a r)) (e.compute (.divide a b))
      (InNormalForm e.numVars)
  /-- Division by the function 0, and this alone, is the error of that name. -/
  divide_zero : e.compute (.divide a b) = .error (.error .divisionByZero) ↔ b = .zero e.numVars
  negate : ∃ f, e.compute (.negate a) = .ok f ∧ f.InNormalForm e.numVars
  star : ∃ f, e.compute (.star a) = .ok f ∧ f.InNormalForm e.numVars
  /-- Nothing is multiplied for a sum over one denominator. -/
  add_of_denominator_eq : a.denominator? = b.denominator? →
    ∃ f, e.compute (.add a b) = .ok f ∧ f.InNormalForm e.numVars
  /-- Numbers are divided in normalising only, and whatever division by 0 gives makes no
  difference there. -/
  divisors : ∀ d : Division, ofFractionBy d = ofFraction

/-- **Arithmetic has no hidden failure.** An overflow happens exactly when two of the polynomials
that are multiplied have too high exponents, and division by 0 is the only other failure. -/
theorem fails_only_by_overflow (ha : e.Constructible a) (hb : e.Constructible b) :
    e.FailsOnlyByOverflow a b := by
  have ha' := ha.inherits (hereditary_inNormalForm e.numVars)
  have hb' := hb.inherits (hereditary_inNormalForm e.numVars)
  have hadd := overflowsIff_add ha' hb'
  exact
    { add := hadd
      subtract := overflowsIff_add ha' (inNormalForm_neg hb')
      multiply := overflowsIff_mul ha' hb'
      constraint := overflowsIff_toConstraint ha'
      divide := fun hne => overflowsIff_div ha' hb' ((isZero_eq_false_iff hb').mpr hne)
      divide_zero := div_eq_divisionByZero_iff ha' hb'
      negate := ⟨a.neg, rfl, inNormalForm_neg ha'⟩
      star := exists_star ha'
      add_of_denominator_eq := fun h => hadd.exists_ok (not_exceeding_crossProducts h)
      divisors := ofFractionBy_eq }

/-- The highest power of `x` over `x + 1`, and `x`: the product overflows, the quotient does not. -/
theorem fails_only_by_overflow_of_power :
    (ofNames ["x"]).FailsOnlyByOverflow
        (.fraction (.ofTerms 1 [([maxExponent], 1)]) (.ofTerms 1 [([0], 1), ([1], 1)]))
        (.ofPolynomial 1 (.ofTerms 1 [([1], 1)])) ∧
      (ofNames ["x"]).compute (.multiply
        (.fraction (.ofTerms 1 [([maxExponent], 1)]) (.ofTerms 1 [([0], 1), ([1], 1)]))
        (.ofPolynomial 1 (.ofTerms 1 [([1], 1)]))) = .error (.fault .exponentOverflow) ∧
      (ofNames ["x"]).compute (.divide
        (.fraction (.ofTerms 1 [([maxExponent], 1)]) (.ofTerms 1 [([0], 1), ([1], 1)]))
        (.ofPolynomial 1 (.ofTerms 1 [([1], 1)]))) =
          .ok (.fraction (.ofTerms 1 [([maxExponent - 1], 1)])
            (.ofTerms 1 [([0], 1), ([1], 1)])) := by
  have hp : (Polynomial.ofTerms 1 [([maxExponent], 1)]).WellFormed 1 :=
    Polynomial.wellFormed_ofTerms (by decide)
  have hq : (Polynomial.ofTerms 1 [([0], 1), ([1], 1)]).WellFormed 1 :=
    Polynomial.wellFormed_ofTerms (by decide)
  have hx : (Polynomial.ofTerms 1 [([1], 1)]).WellFormed 1 :=
    Polynomial.wellFormed_ofTerms (by decide)
  refine ⟨?_, by decide +kernel, by decide +kernel⟩
  exact fails_only_by_overflow (e := ofNames ["x"]) (.fraction hp hq (by decide +kernel))
    (.polynomial hx)

end Engine

end FunctionCache
