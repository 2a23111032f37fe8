import FunctionCache.Proofs.Polynomial.Divisors
import FunctionCache.Proofs.RationalFunction.Closure

/-!
# Sums and products of rational functions in either order

Functions whose polynomials are all in the same number of parameters can be
added and multiplied in either order: the two results are the same, down to the
representation, or both orders fail in the same way. This is what allows a cache
to remember a sum under the unordered pair of its operands.

* `RationalFunction.InParameters` — both polynomials are in `n` parameters;
* `Engine.inParameters_compute` — every operation of the engine keeps to its
  number of parameters;
* `RationalFunction.add_comm`, `RationalFunction.mul_comm`.
-/

namespace FunctionCache

namespace Polynomial

/-- A variable is a polynomial in the number of parameters it was asked for. -/
theorem numVars_of_var {n i : Nat} {p : Polynomial} (h : var n i = .ok p) : p.numVars = n := by
  unfold var at h
  split at h
  · rw [← Except.ok.inj h, numVars_addTerm]
    rfl
  · cases h

end Polynomial

namespace RationalFunction

variable {n : Nat}

/-- The polynomials of the function are in `n` parameters. -/
def InParameters (n : Nat) : RationalFunction → Prop
  | fraction p q => p.numVars = n ∧ q.numVars = n
  | _ => True

/-- The denominator of a polynomial is the 1 in the same parameters. -/
theorem inParameters_ofPolynomial {p : Polynomial} (h : p.numVars = n) :
    (ofPolynomial n p).InParameters n := ⟨h, rfl⟩

theorem inParameters_neg {f : RationalFunction} (h : f.InParameters n) : f.neg.InParameters n := by
  cases f with
  | fraction p q => exact h
  | nan | posInf | negInf => trivial

/-- Cancelling a common monomial keeps the parameters of both parts. -/
theorem numVars_of_cancelMonomials {p q p' q' : Polynomial}
    (h : cancelMonomials p q = .ok (p', q')) :
    p'.numVars = p.numVars ∧ q'.numVars = q.numVars := by
  unfold cancelMonomials at h
  dsimp only at h
  split at h
  · -- there is nothing in common
    cases h
    exact ⟨rfl, rfl⟩
  · obtain ⟨r, hr, h⟩ := Failing.bind_eq_ok.mp h
    obtain ⟨s, hs, h⟩ := Failing.bind_eq_ok.mp h
    cases h
    exact ⟨Polynomial.numVars_of_divideByMonomial hr, Polynomial.numVars_of_divideByMonomial hs⟩

/-- Normalising keeps the parameters of both parts. -/
theorem inParameters_ofFraction {p q : Polynomial} {f : RationalFunction}
    (hp : p.numVars = n) (hq : q.numVars = n) (h : ofFraction p q = .ok f) :
    f.InParameters n := by
  subst hp
  unfold ofFraction at h
  split_ifs at h
  · -- the fraction is 0
    cases h
    exact inParameters_ofPolynomial rfl
  · split at h
    · -- the denominator is a constant
      cases h
      exact ⟨Polynomial.numVars_scale .., rfl⟩
    · -- the numerator is a multiple of the denominator
      cases h
      exact inParameters_ofPolynomial (Polynomial.numVars_constant ..)
    · -- a common monomial is cancelled, and the leading coefficient is made 1
      obtain ⟨⟨p', q'⟩, hcancel, h⟩ := Failing.bind_eq_ok.mp h
      obtain ⟨hp', hq'⟩ := numVars_of_cancelMonomials (Failing.lift_eq_ok.mp hcancel)
      dsimp only at h
      split at h
      · -- what is left of the denominator is a constant
        cases h
        refine ⟨?_, ?_⟩
        · rw [Polynomial.numVars_scale, hp']
        · rw [Polynomial.numVars_one, hp']
      · cases h
        refine ⟨?_, ?_⟩
        · rw [Polynomial.numVars_scale, hp']
        · rw [Polynomial.numVars_scale, hq', hq]

/-- The number of parameters passes from polynomials to functions and from operands to results. -/
theorem hereditary_inParameters (n : Nat) :
    Hereditary n (fun p => p.numVars = n) (InParameters n) where
  constant c := Polynomial.numVars_constant n c
  var hp := Polynomial.numVars_of_var hp
  add {p q} hp _ := (Polynomial.numVars_add p q).trans hp
  mul hp _ hr := (Polynomial.numVars_of_mul hr).trans hp
  parts h := h
  polynomial := inParameters_ofPolynomial
  normalized := inParameters_ofFraction
  neg := inParameters_neg
  nan := trivial
  infinity positive := by cases positive <;> trivial

/-! ## Either order -/

/-- **Sums do not depend on the order of their operands**: both fail in the same way, or both have
the same representation. -/
theorem add_comm {a b : RationalFunction} (ha : a.InParameters n) (hb : b.InParameters n) :
    a.add b = b.add a := by
  rcases a with ⟨p₁, q₁⟩ | _ | _ | _ <;> rcases b with ⟨p₂, q₂⟩ | _ | _ | _
  case fraction.fraction =>
    rw [add_fraction, add_fraction]
    by_cases hq : q₁ = q₂
    · -- one denominator: only the numerators are added
      rw [if_pos hq, if_pos hq.symm, hq, Polynomial.add_comm (ha.1.trans hb.1.symm)]
    · rw [if_neg hq, if_neg (Ne.symm hq), Polynomial.mul_comm (ha.2.trans hb.2.symm)]
      -- both cross products fail in the same way, so it does not matter which comes first
      cases hleft : p₁.mul q₂ with
      | error e =>
        cases hright : p₂.mul q₁ with
        | error e' => rw [Polynomial.error_of_mul hleft, Polynomial.error_of_mul hright]
        | ok right => rfl
      | ok left =>
        cases hright : p₂.mul q₁ with
        | error e' => rfl
        | ok right =>
          -- the sum of the two cross products does not depend on their order
          have hn : left.numVars = right.numVars := by
            rw [Polynomial.numVars_of_mul hleft, Polynomial.numVars_of_mul hright, ha.1, hb.1]
          simp only [Failing.lift_ok, Failing.ok_bind, Polynomial.add_comm hn]
  all_goals rfl

/-- **Products do not depend on the order of their operands.** -/
theorem mul_comm {a b : RationalFunction} (ha : a.InParameters n) (hb : b.InParameters n) :
    a.mul b = b.mul a := by
  rcases a with ⟨p₁, q₁⟩ | _ | _ | _ <;> rcases b with ⟨p₂, q₂⟩ | _ | _ | _
  case fraction.fraction =>
    rw [mul_fraction, mul_fraction, Polynomial.mul_comm (ha.1.trans hb.1.symm),
      Polynomial.mul_comm (ha.2.trans hb.2.symm)]
  all_goals rfl

end RationalFunction

/-! ## The engine -/

namespace Engine

theorem inParameters_constant (e : Engine) (c : Constant) :
    (e.constant c).InParameters e.numVars :=
  (RationalFunction.hereditary_inParameters e.numVars).engine_constant c

/-- Operations on functions of the parameters of the engine make functions of its parameters. -/
theorem inParameters_compute (e : Engine) {op : Operation RationalFunction} {f : RationalFunction}
    (hop : ∀ a ∈ op.operands, a.InParameters e.numVars) (h : e.compute op = .ok f) :
    f.InParameters e.numVars :=
  (RationalFunction.hereditary_inParameters e.numVars).compute hop h

end Engine

end FunctionCache
