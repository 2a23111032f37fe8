import FunctionCache.Proofs.RationalFunction.Laws

/-!
# Signs

A function gets the opposite sign by a change of its numerator alone, without
normalising. Arithmetic does normalise, and all of it commutes with signs: a
class of fractions that become one function is mapped to the class of the
opposites, and the denominator that leads with 1 stays. The rules for infinities
and NaN follow signs, too.

* `RationalFunction.ofFraction_neg`, `ofFraction_neg_right` — normalising;
* `RationalFunction.neg_add_neg`, `neg_mul`, `neg_div`, `sub_eq_neg_sub` — arithmetic;
* `RationalFunction.check_neg` — comparisons with 0;
* `Engine.RespectsSigns` — all of this together;
* `Engine.arithmetic_respects_signs` — the result.
-/

namespace FunctionCache

namespace RationalFunction

variable {n : ℕ} {p q : Polynomial} {a b : RationalFunction}

@[simp] theorem neg_neg (a : RationalFunction) : a.neg.neg = a := by
  cases a with
  | fraction p q => rw [neg, neg, Polynomial.neg_neg]
  | nan | posInf | negInf => rfl

theorem isZero_neg (a : RationalFunction) : a.neg.isZero = a.isZero := by
  cases a with
  | fraction p q => exact p.isZero_neg
  | nan | posInf | negInf => rfl

/-! ## Normalising -/

/-- **Normalising commutes with signs** of the numerator. -/
theorem ofFraction_neg (hp : p.WellFormed n) (hq : q.WellFormed n) :
    ofFraction p.neg q = (ofFraction p q).map neg := by
  cases hq0 : q.isZero with
  | true =>
    rw [ofFraction, ofFraction, if_pos hq0, if_pos hq0]
    rfl
  | false =>
    -- the opposite of the normal form is a normal form, so it is that of the opposite
    obtain ⟨p', q', hf, hreduces, hidentified⟩ := ofFraction_identified hp hq hq0
    have hnormal : NormalFraction n p'.neg q' :=
      inNormalForm_neg (f := fraction p' q') hreduces.normal
    rw [hf, ofFraction_eq_of_identified hp.neg hq hnormal.numerator hnormal.denominator hq0
      hnormal.ne_zero hidentified.neg, ofFraction_of_normal hnormal]
    rfl

/-- **A sign of the denominator** is one of the numerator. -/
theorem ofFraction_neg_right (hp : p.WellFormed n) (hq : q.WellFormed n) :
    ofFraction p q.neg = (ofFraction p q).map neg := by
  rw [← ofFraction_neg hp hq]
  cases hq0 : q.isZero with
  | true => rw [ofFraction, ofFraction, if_pos hq0, if_pos (q.isZero_neg.trans hq0)]
  | false =>
    exact ofFraction_eq_of_identified hp hq.neg hp.neg hq (q.isZero_neg.trans hq0) hq0
      (Identified.signs n p q)

/-! ## Sums -/

/-- **Sums**: opposites have the opposite sum. -/
theorem neg_add_neg (ha : a.InNormalForm n) (hb : b.InNormalForm n) :
    a.neg.add b.neg = (a.add b).map neg := by
  rcases a with ⟨p₁, q₁⟩ | _ | _ | _ <;> rcases b with ⟨p₂, q₂⟩ | _ | _ | _
  case fraction.fraction =>
    rw [neg, neg, add_fraction, add_fraction]
    split_ifs with hq
    · rw [Polynomial.neg_add, ofFraction_neg (ha.numerator.add hb.numerator) ha.denominator]
    · -- both numerators change their signs in the cross products
      rw [Polynomial.neg_mul, Polynomial.neg_mul, Failing.lift_map_bind]
      refine Failing.lift_bind_map fun left hleft => ?_
      rw [Failing.lift_map_bind]
      refine Failing.lift_bind_map fun right hright => Failing.lift_bind_map fun below hbelow => ?_
      rw [Polynomial.neg_add]
      refine ofFraction_neg (n := n) ?_ (ha.denominator.of_mul hb.denominator hbelow)
      exact (ha.numerator.of_mul hb.denominator hleft).add
        (hb.numerator.of_mul ha.denominator hright)
  all_goals rfl

/-- **A difference** is the opposite of the one in the other order. -/
theorem sub_eq_neg_sub (ha : a.InNormalForm n) (hb : b.InNormalForm n) :
    a.sub b = (b.sub a).map neg := by
  have hnegated := inNormalForm_neg ha
  rw [sub, sub, ← neg_add_neg hb hnegated, neg_neg,
    add_comm ha.inParameters (inNormalForm_neg hb).inParameters]

/-! ## Products -/

theorem neg_infinity (positive : Bool) : (infinity positive).neg = infinity (!positive) := by
  cases positive <;> rfl

/-- The opposite of a constant has the opposite value. -/
theorem constantValue?_neg (f : RationalFunction) :
    f.neg.constantValue? = f.constantValue?.map (-·) := by
  cases f with
  | fraction p q =>
    simp only [neg, constantValue?, p.constantValue?_neg]
    split <;> rfl
  | nan | posInf | negInf => rfl

/-- The other infinity makes the opposite product. -/
theorem scaleInfinity_not (positive : Bool) (f : RationalFunction) :
    scaleInfinity (!positive) f = (scaleInfinity positive f).neg := by
  unfold scaleInfinity
  cases f.constantValue? with
  | none => rfl
  | some c =>
    dsimp only
    split_ifs
    · exact (neg_infinity positive).symm
    · exact (neg_infinity (!positive)).symm
    · rfl

/-- The opposite factor makes the opposite product. -/
theorem scaleInfinity_neg (positive : Bool) (f : RationalFunction) :
    scaleInfinity positive f.neg = (scaleInfinity positive f).neg := by
  unfold scaleInfinity
  rw [constantValue?_neg]
  cases f.constantValue? with
  | none => rfl
  | some c =>
    simp only [Option.map_some, neg_pos, neg_lt_zero]
    -- the sign of the constant decides, and the opposite has the other one
    rcases lt_trichotomy c 0 with hc | rfl | hc
    · simp only [hc, lt_asymm hc, if_true, if_false, neg_infinity, Bool.not_not]
    · rfl
    · simp only [hc, lt_asymm hc, if_true, if_false, neg_infinity]

/-- **Products**: the opposite of the left operand makes the opposite of the product. -/
theorem neg_mul (ha : a.InNormalForm n) (hb : b.InNormalForm n) :
    a.neg.mul b = (a.mul b).map neg := by
  rcases a with ⟨p₁, q₁⟩ | _ | _ | _ <;> rcases b with ⟨p₂, q₂⟩ | _ | _ | _
  case fraction.fraction =>
    rw [neg, mul_fraction, mul_fraction, Polynomial.neg_mul, Failing.lift_map_bind]
    refine Failing.lift_bind_map fun above habove => Failing.lift_bind_map fun below hbelow => ?_
    exact ofFraction_neg (ha.numerator.of_mul hb.numerator habove)
      (ha.denominator.of_mul hb.denominator hbelow)
  -- an infinity changes its sign, or the sign that it follows does
  case posInf.fraction => exact congrArg Except.ok (scaleInfinity_not true _)
  case negInf.fraction => exact congrArg Except.ok (scaleInfinity_not false _)
  case fraction.posInf => exact congrArg Except.ok (scaleInfinity_neg true (fraction p₁ q₁))
  case fraction.negInf => exact congrArg Except.ok (scaleInfinity_neg false (fraction p₁ q₁))
  all_goals rfl

/-- The same for the right operand, for products do not depend on the order. -/
theorem mul_neg (ha : a.InNormalForm n) (hb : b.InNormalForm n) :
    a.mul b.neg = (a.mul b).map neg := by
  rw [mul_comm ha.inParameters (inNormalForm_neg hb).inParameters, neg_mul hb ha,
    mul_comm hb.inParameters ha.inParameters]

/-! ## Quotients -/

/-- The opposite has the opposite reciprocal. -/
theorem reciprocal_neg (hb : b.InNormalForm n) :
    b.neg.reciprocal n = (b.reciprocal n).map neg := by
  cases b with
  | fraction p q => exact ofFraction_neg_right hb.denominator hb.numerator
  | nan | posInf | negInf => rfl

/-- **Quotients**: the opposite of either operand makes the opposite of the quotient. -/
theorem neg_div (ha : a.InNormalForm n) (hb : b.InNormalForm n) :
    a.neg.div n b = (a.div n b).map neg ∧ a.div n b.neg = (a.div n b).map neg := by
  cases hne : b.isZero with
  | true =>
    rw [div, div, div, if_pos hne, if_pos hne, if_pos ((isZero_neg b).trans hne)]
    exact ⟨rfl, rfl⟩
  | false =>
    obtain ⟨r, hr, hnormal⟩ := exists_reciprocal hb hne
    have hr' : b.neg.reciprocal n = .ok r.neg := by
      rw [reciprocal_neg hb, hr]
      rfl
    rw [div_eq hne, div_eq hne, div_eq ((isZero_neg b).trans hne), hr, hr']
    exact ⟨neg_mul ha hnormal, mul_neg ha hnormal⟩

/-! ## Comparisons -/

/-- The opposite has the opposite value or fails alike. -/
theorem evaluate_fraction_neg (n : ℕ) (p q : Polynomial) (point : Point) :
    (fraction p.neg q).evaluate n point = ((fraction p q).evaluate n point).map (-·) := by
  unfold evaluate valuesAt
  dsimp only
  split_ifs
  · rfl
  · rfl
  · refine congrArg Except.ok ?_
    rw [Polynomial.evaluate_neg, Rat.div_def, Rat.div_def, Rat.neg_mul]

/-- A fraction is compared with 0 by its value. -/
theorem check_fraction (n : ℕ) (p q : Polynomial) (point : Point) (strict : Bool) :
    (fraction p q).check n point strict = ((fraction p q).evaluate n point).map
      fun x => if strict then decide (0 < x) else decide (0 ≤ x) := by
  cases h : (fraction p q).evaluate n point <;> simp only [check, h] <;> rfl

/-- **A comparison with 0** and the other one of the opposite have opposite answers. -/
theorem check_neg (n : ℕ) (a : RationalFunction) (point : Point) (strict : Bool) :
    a.neg.check n point (!strict) = (a.check n point strict).map (!·) := by
  cases a with
  | fraction p q =>
    rw [neg, check_fraction, check_fraction, evaluate_fraction_neg]
    cases (fraction p q).evaluate n point with
    | error e => rfl
    | ok x =>
      -- not above 0 is the same as the opposite being at least 0
      refine congrArg Except.ok ?_
      cases strict with
      | false => simp only [Bool.not_false, if_true, Bool.false_eq_true, if_false, neg_pos,
          ← decide_not, not_le]
      | true => simp only [Bool.not_true, if_true, Bool.false_eq_true, if_false, neg_nonneg,
          ← decide_not, not_lt]
  | nan =>
    simp only [neg, check, evaluate, valuesAt]
    split_ifs <;> rfl
  | posInf | negInf => rfl

end RationalFunction

namespace Engine

open RationalFunction

variable {e : Engine} {a b : RationalFunction}

/-- The laws of signs for `a` and `b`. Operations on opposites fail in the way in which those on the
functions themselves fail, or have the opposite results. -/
structure RespectsSigns (e : Engine) (a b : RationalFunction) : Prop where
  negate : e.compute (.negate a) = .ok a.neg
  negate_negate : e.compute (.negate a.neg) = .ok a
  add : e.compute (.add a.neg b.neg) = (e.compute (.add a b)).map neg
  subtract : e.compute (.subtract a b) = (e.compute (.subtract b a)).map neg
  multiply : e.compute (.multiply a.neg b) = (e.compute (.multiply a b)).map neg
  divide_left : e.compute (.divide a.neg b) = (e.compute (.divide a b)).map neg
  divide_right : e.compute (.divide a b.neg) = (e.compute (.divide a b)).map neg
  /-- No computation breaks off but by an exponent that leaves its range. -/
  fault {op : Operation RationalFunction} {fault : Fault} :
    op ∈ [.add a b, .subtract a b, .multiply a b, .divide a b] →
      e.compute op = .error (.fault fault) → fault = .exponentOverflow
  /-- At points of any size. -/
  check (point : Point) (strict : Bool) :
    e.answer a.neg (.check point (!strict)) = (e.answer a (.check point strict)).map (!·)

/-- Whatever breaks off has overflown an exponent. -/
theorem fault_eq_exponentOverflow (ha : a.InNormalForm e.numVars) (hb : b.InNormalForm e.numVars)
    {op : Operation RationalFunction} {fault : Fault}
    (hop : op ∈ [.add a b, .subtract a b, .multiply a b, .divide a b])
    (hx : e.compute op = .error (.fault fault)) : fault = .exponentOverflow := by
  have hinj {x : Failure} (h : x = .fault .exponentOverflow) (hx : x = .fault fault) :
      fault = .exponentOverflow := Failure.fault.inj (hx.symm.trans h)
  simp only [List.mem_cons, List.not_mem_nil, or_false] at hop
  rcases hop with rfl | rfl | rfl | rfl
  · exact hinj ((overflowsIff_add ha hb).eq_overflow hx) rfl
  · exact hinj ((overflowsIff_add ha (inNormalForm_neg hb)).eq_overflow hx) rfl
  · exact hinj ((overflowsIff_mul ha hb).eq_overflow hx) rfl
  · cases hne : b.isZero with
    | true =>
      -- division by 0 is an error
      rw [compute, div, if_pos hne] at hx
      cases hx
    | false =>
      obtain ⟨r, -, hdiv⟩ := overflowsIff_div ha hb hne
      exact hinj (hdiv.eq_overflow hx) rfl

/-- **Arithmetic respects signs**, for all functions that the engine can make, infinities and NaN
included. -/
theorem arithmetic_respects_signs (ha : e.Constructible a) (hb : e.Constructible b) :
    e.RespectsSigns a b := by
  have ha' := constructible_inNormalForm ha
  have hb' := constructible_inNormalForm hb
  obtain ⟨hleft, hright⟩ := neg_div ha' hb'
  exact
    { negate := rfl
      negate_negate := congrArg Except.ok (neg_neg a)
      add := neg_add_neg ha' hb'
      subtract := sub_eq_neg_sub ha' hb'
      multiply := neg_mul ha' hb'
      divide_left := hleft
      divide_right := hright
      fault := fault_eq_exponentOverflow ha' hb'
      check := check_neg e.numVars a }

/-- The quotients of `1 / x` by `1 - x` and by `x - 1` have one denominator. -/
theorem arithmetic_respects_signs_of_quotient :
    (ofNames ["x"]).RespectsSigns (.fraction (.one 1) (.ofTerms 1 [([1], 1)]))
        (.ofPolynomial 1 (.ofTerms 1 [([0], 1), ([1], -1)])) ∧
      (ofNames ["x"]).compute (.divide (.fraction (.one 1) (.ofTerms 1 [([1], 1)]))
        (.ofPolynomial 1 (.ofTerms 1 [([0], 1), ([1], -1)]))) =
          .ok (.fraction (.constant 1 (-1)) (.ofTerms 1 [([1], -1), ([2], 1)])) ∧
      (ofNames ["x"]).compute (.divide (.fraction (.one 1) (.ofTerms 1 [([1], 1)]))
        (.ofPolynomial 1 (.ofTerms 1 [([0], -1), ([1], 1)]))) =
          .ok (.fraction (.constant 1 1) (.ofTerms 1 [([1], -1), ([2], 1)])) := by
  have hx : (Polynomial.ofTerms 1 [([1], 1)]).WellFormed 1 :=
    Polynomial.wellFormed_ofTerms (by decide)
  have hdifference : (Polynomial.ofTerms 1 [([0], 1), ([1], -1)]).WellFormed 1 :=
    Polynomial.wellFormed_ofTerms (by decide)
  refine ⟨?_, by decide +kernel, by decide +kernel⟩
  exact arithmetic_respects_signs (e := ofNames ["x"])
    (.fraction (Polynomial.wellFormed_one 1) hx (by decide +kernel)) (.polynomial hdifference)

end Engine

end FunctionCache
