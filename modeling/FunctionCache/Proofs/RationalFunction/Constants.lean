import Mathlib.Algebra.CharZero.Infinite
import FunctionCache.Proofs.Layers.Transparent
import FunctionCache.Proofs.RationalFunction.Values

/-!
# Constants are recognised

Normalising computes no greatest common divisors, so one function can have
several normal forms. Constants have only one: if a fraction has the value `c`
at every point at which it has a value at all, its numerator is `c` times its
denominator, and the normal form leaves nothing but `c`. So the tests for
constants, which look at the representation, miss none of them.

* `RationalFunction.TakesOnly` — the function has no value but `c`;
* `RationalFunction.takesOnly_iff` — its normal form is the constant `c`;
* `Engine.RecognisesConstants` — what follows for the tests, for products with
  infinities and for handles in caches;
* `Engine.recognises_constants` — the result.
-/

namespace FunctionCache

namespace RationalFunction

variable {n : ℕ} {p q : Polynomial} {f : RationalFunction} {c : ℚ}

/-- The function is a fraction. -/
def IsFinite (f : RationalFunction) : Prop := ∃ p q, f = fraction p q

/-- Wherever the function has a value, it is `c`. -/
def TakesOnly (n : ℕ) (f : RationalFunction) (c : ℚ) : Prop :=
  ∀ point x, f.evaluate n point = .ok x → x = c

/-! ## The normal form of constants -/

theorem takesOnly_constant (n : ℕ) (c : ℚ) : (constant n c).TakesOnly n c := by
  intro point x hx
  obtain ⟨-, p, q, hpq, -, hvalue⟩ := evaluate_eq_ok_iff.mp hx
  cases hpq
  rw [← hvalue, Polynomial.one, Polynomial.evaluate_constant, Polynomial.evaluate_constant,
    div_one]

/-- Equal values wherever there are values make equal polynomials. -/
theorem toMvPolynomial_eq_of_takesOnly (hp : p.WellFormed n) (hq : q.WellFormed n)
    (hq0 : q.isZero = false) (h : (fraction p q).TakesOnly n c) :
    p.toMvPolynomial = MvPolynomial.C c * q.toMvPolynomial := by
  refine mul_right_cancel₀ (toMvPolynomial_ne_zero hq hq0) (MvPolynomial.funext fun x => ?_)
  -- at a pole both sides are 0
  let point : Point := ⟨(List.range n).map x⟩
  have hsize : point.size = n := by simp [point, Point.size]
  rw [map_mul, map_mul, map_mul, MvPolynomial.eval_C, hp.eval_toMvPolynomial,
    hq.eval_toMvPolynomial]
  by_cases hpole : q.evaluate ((List.range n).map x) = 0
  · rw [hpole, mul_zero, mul_zero]
  · have hvalue := h point _ (evaluate_fraction hsize hpole)
    rw [div_eq_iff hpole] at hvalue
    rw [hvalue]

/-- **A constant has one normal form.** -/
theorem takesOnly_iff (hf : f.InNormalForm n) (hfinite : f.IsFinite) :
    f.TakesOnly n c ↔ f = constant n c := by
  obtain ⟨p, q, rfl⟩ := hfinite
  constructor
  · intro h
    -- in normal form only constants are multiples of their denominators
    have hmultiple : p = q.scale c := by
      refine hf.numerator.eq_of_toMvPolynomial_eq (hf.denominator.scale c) ?_
      rw [toMvPolynomial_eq_of_takesOnly hf.numerator hf.denominator hf.ne_zero h,
        Polynomial.toMvPolynomial_scale]
    have hq : q = Polynomial.one n := by
      cases hconstant : q.isConstant with
      | true => exact hf.of_isConstant hconstant
      | false => exact absurd hmultiple (hf.not_multiple hconstant c)
    rw [hmultiple, hq, Polynomial.one, Polynomial.scale_constant, one_mul]
    rfl
  · intro h
    rw [h]
    exact takesOnly_constant n c

theorem constant_injective (n : ℕ) : Function.Injective (constant n) := by
  intro c d h
  injection h with hcd
  exact Polynomial.constant_injective n hcd

theorem isFinite_constant (n : ℕ) (c : ℚ) : (constant n c).IsFinite := ⟨_, _, rfl⟩

/-! ## Tests -/

/-- The value of a constant is found, and nothing else is taken for a constant. -/
theorem constantValue?_eq_some_iff (hf : f.InNormalForm n) :
    f.constantValue? = some c ↔ f = constant n c := by
  cases f with
  | fraction p q =>
    have hone := hf.denominator.isOne_iff
    have hvalue := hf.numerator.constantValue?_eq_some_iff (c := c)
    simp only [constantValue?, constant, ofPolynomial, fraction.injEq]
    split
    · -- over 1 the numerator decides
      rename_i hq
      rw [hvalue]
      exact ⟨fun h => ⟨h, hone.mp hq⟩, And.left⟩
    · -- over anything else there is no constant
      rename_i hq
      refine ⟨fun h => ?_, fun h => absurd (hone.mpr h.2) hq⟩
      cases h
  | nan | posInf | negInf => constructor <;> intro h <;> cases h

/-- The test for 1 looks at both parts, and in normal form they are 1 both. -/
theorem isOne_iff (hf : f.InNormalForm n) : f.isOne = true ↔ f = one n := by
  cases f with
  | fraction p q =>
    simp only [isOne, Bool.and_eq_true, hf.numerator.isOne_iff, hf.denominator.isOne_iff, one,
      ofPolynomial, fraction.injEq]
  | nan | posInf | negInf => constructor <;> intro h <;> cases h

/-- The test for constants misses no fraction that is one. -/
theorem isConstant_iff (hf : f.InNormalForm n) (hfinite : f.IsFinite) :
    f.isConstant = true ↔ ∃ c, f = constant n c := by
  obtain ⟨p, q, rfl⟩ := hfinite
  simp only [isConstant, Bool.and_eq_true, hf.numerator.isConstant_iff, constant, ofPolynomial,
    fraction.injEq]
  constructor
  · rintro ⟨⟨c, hp⟩, hq⟩
    exact ⟨c, hp, hf.of_isConstant hq⟩
  · rintro ⟨c, hp, rfl⟩
    exact ⟨⟨c, hp⟩, Polynomial.isConstant_constant n 1⟩

/-- The value asked of a fraction, as a case distinction on whether it is constant. -/
theorem toRat_fraction (names : List String) (p q : Polynomial) :
    (fraction p q).toRat names = match (fraction p q).constantValue? with
      | some c => .ok c
      | none => .error (.notConstant ((fraction p q).text names)) := rfl

/-- The value of a constant is given, and of nothing else. -/
theorem toRat_eq_ok_iff (names : List String) (hf : f.InNormalForm n) :
    f.toRat names = .ok c ↔ f = constant n c := by
  rw [← constantValue?_eq_some_iff hf]
  cases f with
  | fraction p q =>
    rw [toRat_fraction]
    cases (fraction p q).constantValue? <;> simp
  | nan | posInf | negInf => exact ⟨nofun, nofun⟩

/-- The failure names the function by its text, and it is a fraction but no constant. -/
theorem toRat_eq_notConstant_iff (names : List String) (text : String) (hf : f.InNormalForm n) :
    f.toRat names = .error (.notConstant text) ↔
      f.IsFinite ∧ (¬∃ c, f = constant n c) ∧ f.text names = text := by
  simp only [← constantValue?_eq_some_iff hf]
  cases f with
  | fraction p q =>
    have hfinite : (fraction p q).IsFinite := ⟨p, q, rfl⟩
    rw [toRat_fraction]
    cases (fraction p q).constantValue? <;> simp [hfinite]
  | nan | posInf | negInf => exact ⟨nofun, fun ⟨⟨_, _, h⟩, _⟩ => nomatch h⟩

/-! ## Products with infinities -/

theorem infinity_ne_nan (positive : Bool) : infinity positive ≠ nan := by
  cases positive <;> nofun

theorem infinity_ne_not (positive : Bool) : infinity positive ≠ infinity (!positive) := by
  cases positive <;> nofun

/-- What an infinity times a function is, by the constant that the function is, if it is one. -/
theorem scaleInfinity_eq (positive : Bool) (hf : f.InNormalForm n) :
    (∃ c, f = constant n c ∧ 0 < c ∧ scaleInfinity positive f = infinity positive) ∨
      (∃ c, f = constant n c ∧ c < 0 ∧ scaleInfinity positive f = infinity (!positive)) ∨
      ((∀ c, f = constant n c → c = 0) ∧ scaleInfinity positive f = nan) := by
  have hvalue (c : ℚ) := constantValue?_eq_some_iff (c := c) hf
  unfold scaleInfinity
  cases hc : f.constantValue? with
  | none =>
    -- the test finds no constant, so there is none
    refine Or.inr (Or.inr ⟨fun c h => ?_, rfl⟩)
    rw [(hvalue c).mpr h] at hc
    cases hc
  | some c =>
    have hfc := (hvalue c).mp hc
    dsimp only
    split_ifs with hpos hneg
    · exact Or.inl ⟨c, hfc, hpos, rfl⟩
    · exact Or.inr (Or.inl ⟨c, hfc, hneg, rfl⟩)
    · -- neither above nor below 0
      refine Or.inr (Or.inr ⟨fun d hd => ?_, rfl⟩)
      have hcd : c = d := constant_injective n (hfc.symm.trans hd)
      rw [← hcd]
      exact le_antisymm (not_lt.mp hpos) (not_lt.mp hneg)

/-- The three results of an infinity times a function tell three kinds of functions apart. -/
structure ScalesInfinity (n : ℕ) (f : RationalFunction) (positive : Bool)
    (result : Except Failure RationalFunction) : Prop where
  same : result = .ok (infinity positive) ↔ ∃ c, f.TakesOnly n c ∧ 0 < c
  opposite : result = .ok (infinity (!positive)) ↔ ∃ c, f.TakesOnly n c ∧ c < 0
  neither : result = .ok nan ↔ ∀ c, f.TakesOnly n c → c = 0

/-- **An infinity times a fraction** tells by its result what sign the constant has. -/
theorem scalesInfinity (positive : Bool) (hf : f.InNormalForm n) (hfinite : f.IsFinite) :
    ScalesInfinity n f positive (.ok (scaleInfinity positive f)) := by
  have htakes {c : ℚ} : f.TakesOnly n c ↔ f = constant n c := takesOnly_iff hf hfinite
  have hunique {c d : ℚ} (hc : f = constant n c) (hd : f.TakesOnly n d) : c = d :=
    constant_injective n (hc.symm.trans (htakes.mp hd))
  have hnot : Except.ok (infinity positive) ≠ (.ok (infinity (!positive)) : Except Failure _) :=
    fun h => infinity_ne_not positive (Except.ok.inj h)
  have hnan (positive : Bool) : Except.ok (infinity positive) ≠ (.ok nan : Except Failure _) :=
    fun h => infinity_ne_nan positive (Except.ok.inj h)
  -- the three results differ, so in each case one equivalence holds and two are refuted
  rcases scaleInfinity_eq positive hf with ⟨c, hc, hpos, h⟩ | ⟨c, hc, hneg, h⟩ | ⟨hzero, h⟩
  all_goals rw [h]
  · -- a positive constant
    refine ⟨iff_of_true rfl ⟨c, htakes.mpr hc, hpos⟩, iff_of_false hnot ?_,
      iff_of_false (hnan _) ?_⟩
    · rintro ⟨d, hd, hneg⟩
      rw [← hunique hc hd] at hneg
      exact lt_asymm hpos hneg
    · exact fun h => hpos.ne' (h c (htakes.mpr hc))
  · -- a negative constant
    refine ⟨iff_of_false hnot.symm ?_, iff_of_true rfl ⟨c, htakes.mpr hc, hneg⟩,
      iff_of_false (hnan _) ?_⟩
    · rintro ⟨d, hd, hpos⟩
      rw [← hunique hc hd] at hpos
      exact lt_asymm hpos hneg
    · exact fun h => hneg.ne (h c (htakes.mpr hc))
  · -- 0, or no constant
    have hzero' (c : ℚ) (h : f.TakesOnly n c) : c = 0 := hzero c (htakes.mp h)
    refine ⟨iff_of_false (hnan _).symm ?_, iff_of_false (hnan _).symm ?_, iff_of_true rfl hzero'⟩
    · exact fun ⟨c, hc, hpos⟩ => hpos.ne' (hzero' c hc)
    · exact fun ⟨c, hc, hneg⟩ => hneg.ne (hzero' c hc)

end RationalFunction

/-! ## What is recognised -/

open LayeredFactory Erasable Storage Transparent

/-- In any layers of caches a function is stored under the handle of a constant exactly if it is
this constant. -/
theorem handle_constant_eq_iff {S F : Type} [LayeredFactory S F] [Erasable S] [Transparent S F]
    {s : S} (hs : Sound s) {h : F} {f : RationalFunction} (hf : reveal h s = .ok f)
    (c : Constant) :
    (FunctionFactory.constant c s).1 = h ↔ f = (engine s).constant c := by
  rw [constant_eq c hs]
  constructor
  · intro hh
    -- handles that are the same stand for the same function
    have hrevealed := reveal_embed_of_reveal ((engine s).constant c) hf
    have hconstant := reveal_embed ((engine s).constant c) s
    rw [hh, hrevealed] at hconstant
    exact Except.ok.inj hconstant
  · rintro rfl
    rw [embed_of_reveal hs hf]

namespace Engine

open RationalFunction

/-- What the engine and the caches around it know of the values of a fraction. -/
structure RecognisesConstants (e : Engine) (f : RationalFunction) : Prop where
  /-- A function that has no value but `c` is the constant `c`. -/
  constant (c : ℚ) : f = e.constant (.rational c) ↔ f.TakesOnly e.numVars c
  /-- So in every stack of caches it has the handle of this constant. -/
  handle {S F : Type} [LayeredFactory S F] [Erasable S] [Transparent S F] {s : S} {h : F} :
    Sound s → engine s = e → reveal h s = .ok f → ∀ c,
      (FunctionFactory.constant (.rational c) s).1 = h ↔ f.TakesOnly e.numVars c
  toRat (c : ℚ) : f.toRat e.names = .ok c ↔ f.TakesOnly e.numVars c
  isZero : f.isZero = true ↔ f.TakesOnly e.numVars 0
  eq_zero : f = e.constant .zero ↔ f.TakesOnly e.numVars 0
  isOne : f.isOne = true ↔ f.TakesOnly e.numVars 1
  eq_one : f = e.constant .one ↔ f.TakesOnly e.numVars 1
  isConstant : f.isConstant = true ↔ ∃ c, f.TakesOnly e.numVars c
  mul_posInf : ScalesInfinity e.numVars f true (e.compute (.multiply .posInf f))
  mul_negInf : ScalesInfinity e.numVars f false (e.compute (.multiply .negInf f))

/-- **Constants are recognised.** The tests look at the representation of a fraction and find out
what values it has: whether it has one value only, and which. Asking for the value of a constant
fails for that reason exactly if the function is a fraction with several values. -/
theorem recognises_constants {e : Engine} {f : RationalFunction} (hf : e.Constructible f) :
    (f.IsFinite → e.RecognisesConstants f) ∧
      ((∃ text, f.toRat e.names = .error (.notConstant text)) ↔
        f.IsFinite ∧ ¬∃ c, f.TakesOnly e.numVars c) := by
  have hnormal := hf.inherits (hereditary_inNormalForm e.numVars)
  constructor
  · intro hfinite
    have htakes {c : ℚ} : f.TakesOnly e.numVars c ↔ f = .constant e.numVars c :=
      takesOnly_iff hnormal hfinite
    have hzero : f = .zero e.numVars ↔ f.TakesOnly e.numVars 0 := by
      rw [htakes, zero_eq_constant]
    -- every test is about `f = constant c`, for its own `c`
    obtain ⟨p, q, rfl⟩ := hfinite
    exact
      { constant := fun c => htakes.symm
        handle := fun {_ _ _ _ _ _ _} hs he hh c => by
          rw [handle_constant_eq_iff hs hh, he]
          exact htakes.symm
        toRat := fun c => (toRat_eq_ok_iff e.names hnormal).trans htakes.symm
        isZero := (isZero_iff hnormal).trans hzero
        eq_zero := hzero
        isOne := (isOne_iff hnormal).trans htakes.symm
        eq_one := htakes.symm
        isConstant := by
          rw [isConstant_iff hnormal ⟨p, q, rfl⟩]
          exact exists_congr fun c => htakes.symm
        mul_posInf := scalesInfinity true hnormal ⟨p, q, rfl⟩
        mul_negInf := scalesInfinity false hnormal ⟨p, q, rfl⟩ }
  · simp only [toRat_eq_notConstant_iff e.names _ hnormal]
    constructor
    · rintro ⟨-, hfinite, hnone, -⟩
      refine ⟨hfinite, fun ⟨c, hc⟩ => hnone ⟨c, ?_⟩⟩
      exact (takesOnly_iff hnormal hfinite).mp hc
    · rintro ⟨hfinite, hnone⟩
      refine ⟨f.text e.names, hfinite, fun ⟨c, hc⟩ => hnone ⟨c, ?_⟩, rfl⟩
      exact (takesOnly_iff hnormal hfinite).mpr hc

/-- The quotient of `2x + 2` by `x + 1` is recognised. -/
theorem recognises_two : (ofNames ["x"]).Constructible (.constant 1 2) ∧
    (ofNames ["x"]).RecognisesConstants (.constant 1 2) := by
  have hp : (Polynomial.ofTerms 1 [([0], 2), ([1], 2)]).WellFormed 1 :=
    Polynomial.wellFormed_ofTerms (by decide)
  have hq : (Polynomial.ofTerms 1 [([0], 1), ([1], 1)]).WellFormed 1 :=
    Polynomial.wellFormed_ofTerms (by decide)
  have hf : (ofNames ["x"]).Constructible (.constant 1 2) := .fraction hp hq (by decide +kernel)
  exact ⟨hf, (recognises_constants hf).1 (isFinite_constant 1 2)⟩

end Engine

end FunctionCache
