import FunctionCache.Proofs.Programs.Stored
import FunctionCache.Proofs.Programs.Transparency
import FunctionCache.Proofs.RationalFunction.Polynomials

/-!
# Handles of polynomials are canonical

A program that makes polynomials and adds, subtracts and multiplies them never
leaves the polynomials: every function it makes has denominator 1. Polynomials
with the same values are the same, and a cache stores nothing twice, so two
functions have one handle exactly if they have the same value at every point.

* `Step.OnPolynomials` — the steps of such programs;
* `Engine.maintains_isPolynomial` — operations on polynomials make polynomials;
* `Session.Canonical` — handles tell functions apart by their values;
* `Session.polynomials_canonical` — the result.
-/

namespace FunctionCache

open LayeredFactory Erasable Storage

/-- The shapes of operations that do not divide. -/
def Operation.OnPolynomials : Operation Unit → Prop
  | parameter _ | add _ _ | subtract _ _ | multiply _ _ | negate _ => True
  | divide _ _ | star _ | constraint _ => False

/-- The steps that make well-formed polynomials in `n` parameters, or combine polynomials without
dividing. -/
def Step.OnPolynomials (n : Nat) : Step → Prop
  | constant .one | constant .zero | constant (.rational _) => True
  | polynomial p => p.WellFormed n
  | apply op => op.shape.OnPolynomials
  | _ => False

/-- **Operations that do not divide** make polynomials of polynomials. -/
theorem Engine.maintains_isPolynomial (e : Engine) :
    e.Maintains Operation.OnPolynomials (RationalFunction.IsPolynomial e.numVars) where
  inParameters := RationalFunction.IsPolynomial.inParameters
  subtract _ := ⟨trivial, trivial⟩
  compute {op f} hshape hop hf := by
    cases op with
    | parameter i =>
      simp only [compute, parameter] at hf
      split at hf
      · obtain ⟨p, hp, hf⟩ := Failing.bind_eq_ok.mp hf
        cases hf
        exact ⟨p, Polynomial.wellFormed_of_var (Failing.lift_eq_ok.mp hp), rfl⟩
      · cases hf
    | add a b =>
      exact (hop a (by simp [Operation.operands])).add (hop b (by simp [Operation.operands])) hf
    | subtract a b =>
      have hb := hop b (by simp [Operation.operands])
      exact (hop a (by simp [Operation.operands])).add hb.neg hf
    | multiply a b =>
      exact (hop a (by simp [Operation.operands])).mul (hop b (by simp [Operation.operands])) hf
    | negate a =>
      cases hf
      exact (hop a (by simp [Operation.operands])).neg
    | divide | star | constraint => exact hshape.elim

namespace Step.OnPolynomials

variable {n : Nat} {step : Step}

/-- Steps on polynomials can be performed by every stack of layers. -/
theorem common (h : step.OnPolynomials n) : step.Common n := by
  cases step with
  | polynomial p => exact h.numVars
  | constant | apply => trivial
  | fraction | renew | foreign | find | evaluate | constantValue | check | properties | reveal
    | equal | setMemo | setFailing | statistics | parameters => exact h.elim

/-- Steps on polynomials store nothing but polynomials. -/
theorem within {e : Engine} (h : step.OnPolynomials e.numVars) :
    step.Within e Operation.OnPolynomials (RationalFunction.IsPolynomial e.numVars) := by
  cases step with
  | polynomial p => exact RationalFunction.isPolynomial_ofPolynomial h
  | apply op => exact h
  | constant c =>
    cases c with
    | one => exact RationalFunction.isPolynomial_constant _ 1
    | zero => exact RationalFunction.isPolynomial_ofPolynomial (Polynomial.wellFormed_zero _)
    | rational q => exact RationalFunction.isPolynomial_constant _ q
    | nan | posInf | negInf => exact h.elim
  | fraction | renew | foreign | find | evaluate | constantValue | check | properties | reveal
    | equal | setMemo | setFailing | statistics | parameters => exact h.elim

end Step.OnPolynomials

/-- In a run that agrees with one on the engine, every handle stands for something. -/
theorem Agrees.exists_reveal {S F : Type} [LayeredFactory S F]
    {run : List (Except StepError Answer) × Session S F}
    {bare : List (Except StepError Answer) × Session (Metered Engine) RationalFunction}
    (h : Agrees run bare) {f : F} (hf : some f ∈ run.2.made) :
    ∃ r, reveal f run.2.factory = .ok r := by
  have hmem : some (reveal f run.2.factory) ∈ run.2.made.map (·.map (reveal · run.2.factory)) :=
    Array.mem_map.mpr ⟨some f, hf, rfl⟩
  rw [h.made] at hmem
  obtain ⟨o, -, ho⟩ := Array.mem_map.mp hmem
  obtain ⟨r, -, hr⟩ := Option.map_eq_some_iff.mp ho
  exact ⟨r, hr.symm⟩

namespace Session

variable {S F : Type} [LayeredFactory S F]

/-- The functions that the steps of a session made are polynomials in the parameters of `e`, and
their handles tell them apart by their values. -/
structure Canonical (e : Engine) (s : Session S F) : Prop where
  /-- The denominator of every function is 1. -/
  polynomial {h : F} : some h ∈ s.made → ∃ p : Polynomial, p.WellFormed e.numVars ∧
    reveal h s.factory = .ok (.fraction p (.one e.numVars))
  /-- Every function has a value at every point. -/
  value {h : F} {point : Point} : some h ∈ s.made → point.size = e.numVars →
    ∃ x, FunctionFactory.ask (.value point) h s.factory = .ok x
  /-- Two steps made the same handle exactly if their functions have the same values. -/
  equal {h h' : F} : some h ∈ s.made → some h' ∈ s.made → (h = h' ↔
    ∀ point : Point, point.size = e.numVars →
      FunctionFactory.ask (.value point) h s.factory =
        FunctionFactory.ask (.value point) h' s.factory)

variable [Erasable S] [Storage S F]

/-- The value of a function is that of the rational function that it stands for. -/
theorem ask_value {s : S} {f : F} {r : RationalFunction} (hr : reveal f s = .ok r) (point : Point) :
    FunctionFactory.ask (.value point) f s =
      (r.evaluate (engine s).numVars point).mapError .error := by
  rw [ask_eq, hr]
  rfl

/-- Answers that fail with different errors stay different as failures. -/
theorem mapError_inj {α : Type} {x y : Except FunctionError α} :
    x.mapError Failure.error = y.mapError Failure.error ↔ x = y := by
  cases x <;> cases y <;> simp

variable [BEq F] [LawfulBEq F] [Hashable F]

/-- In a cache of polynomials, handles tell functions apart by their values. -/
theorem canonical_of_confined {e : Engine} {s : Session (Cache S F) Handle}
    (hc : s.factory.Confined e (RationalFunction.IsPolynomial e.numVars))
    (hmade : ∀ h, some h ∈ s.made → ∃ r, reveal h s.factory = .ok r) : s.Canonical e where
  polynomial {h} hh := by
    obtain ⟨r, hr⟩ := hmade h hh
    obtain ⟨p, hp, rfl⟩ := hc.stored hr
    exact ⟨p, hp, hr⟩
  value {h point} hh hsize := by
    obtain ⟨r, hr⟩ := hmade h hh
    obtain ⟨x, hx⟩ := (hc.stored hr).exists_evaluate hsize
    rw [ask_value hr, hc.engine, hx]
    exact ⟨x, rfl⟩
  equal {h h'} hh hh' := by
    obtain ⟨r, hr⟩ := hmade h hh
    obtain ⟨r', hr'⟩ := hmade h' hh'
    simp only [ask_value hr, ask_value hr', hc.engine, mapError_inj]
    -- polynomials with the same values are the same
    rw [← (hc.stored hr).eq_iff_evaluate (hc.stored hr')]
    constructor
    · rintro rfl
      exact Except.ok.inj (hr.symm.trans hr')
    · -- a function is stored once
      rintro rfl
      exact hc.faithful.reveal_inj hr hr'

/-- **Handles of polynomials are canonical.** In a program on a cache around the engine that makes
polynomials and combines them by anything but divisions, with memos on, off or switched in between,
every function has denominator 1, and two of them get the same handle exactly if they have the same
value at every point, however they were computed. -/
theorem polynomials_canonical (e : Engine) (memoOn : Bool) (program : List Scheduled)
    (hprogram : ∀ first ∈ program, first.step.OnPolynomials e.numVars) :
    ((cached e memoOn).runScheduled program).2.Canonical e := by
  have hbare := Metered.willing_ofContext e
  have hjoint := joint_toEngine memoOn (s := Metered.ofContext e) trivial hbare hbare rfl
  have hengine : engine (Cache.ofContext memoOn (Metered.ofContext e)) = e := hjoint.engine_eq
  have hmaintains := e.maintains_isPolynomial
  have hagrees := agrees_runScheduled hjoint fun first hfirst =>
    hengine ▸ (hprogram first hfirst).common
  refine canonical_of_confined ?_ fun h hh => hagrees.exists_reveal hh
  -- a new cache holds 1 and 0, and no step stores anything but polynomials
  refine invariant_runScheduled (P := Cache.Confined e (RationalFunction.IsPolynomial e.numVars))
    (fun ht hc => hc.setMemoOn? ht)
    (fun first hfirst made => .leaves_perform hmaintains (hprogram first hfirst).within made) ?_
  exact Cache.confined_ofContext memoOn trivial rfl
    (RationalFunction.isPolynomial_constant _ 1)
    (RationalFunction.isPolynomial_ofPolynomial (Polynomial.wellFormed_zero _))

/-- The square of `x + 1`, by a product and by its terms, and `x` by a difference. -/
theorem polynomials_canonical_of_squares :
    let program : List Scheduled := [⟨[], .apply (.parameter 0)⟩, ⟨[], .constant .one⟩,
      ⟨[], .apply (.add 0 1)⟩, ⟨[(0, false)], .apply (.multiply 2 2)⟩,
      ⟨[], .polynomial (.ofTerms 1 [([0], 1), ([1], 2), ([2], 1)])⟩, ⟨[], .apply (.subtract 2 1)⟩]
    (∀ first ∈ program, first.step.OnPolynomials (Engine.ofNames ["x"]).numVars) ∧
      ((cached (.ofNames ["x"]) true).runScheduled program).2.Canonical (.ofNames ["x"]) := by
  intro program
  have hprogram : ∀ first ∈ program, first.step.OnPolynomials (Engine.ofNames ["x"]).numVars := by
    have hsquare : (Polynomial.ofTerms 1 [([0], 1), ([1], 2), ([2], 1)]).WellFormed 1 :=
      Polynomial.wellFormed_ofTerms (by decide)
    simp only [program, List.forall_mem_cons]
    exact ⟨trivial, trivial, trivial, trivial, hsquare, trivial, nofun⟩
  exact ⟨hprogram, polynomials_canonical (.ofNames ["x"]) true program hprogram⟩

end Session

end FunctionCache
