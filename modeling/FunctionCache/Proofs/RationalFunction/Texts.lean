import FunctionCache.Proofs.Polynomial.Texts
import FunctionCache.Proofs.RationalFunction.NormalForm

/-!
# The text of a function identifies it

No polynomial has a parenthesis in its text, so parentheses tell fractions from
polynomials, and numerators from denominators. A denominator 1 is not written,
but in normal form there is only one. A value that is not finite has a text that
no polynomial and no fraction has.

* `RationalFunction.text_fraction_injective`, `text_fraction_notMem` — fractions
  among themselves, and fractions and other values;
* `RationalFunction.InNormalForm.text_injective` — functions in normal form;
* `Engine.text_identifies` — the result.
-/

namespace FunctionCache

namespace RationalFunction

open Monomial (LegibleLabels)

variable {n : ℕ} {names : List String} {p q p' q' : Polynomial} {f g : RationalFunction}

/-- The text of a fraction whose denominator is written. -/
theorem text_fraction_of_ne_one (hq : q.isOne = false) :
    (fraction p q).text names =
      "(" ++ p.text names ++ ")/(" ++ (q.text names ++ ")") := by
  rw [text, if_neg (Bool.eq_false_iff.mp hq)]
  simp only [String.append_assoc]

/-- A denominator that is written puts parentheses into the text. -/
theorem parenthesis_mem_text (hq : q.isOne = false) :
    '(' ∈ ((fraction p q).text names).toList := by
  rw [text_fraction_of_ne_one hq, String.append_assoc, String.append_assoc, String.toList_append]
  exact List.mem_cons_self

/-- The text of a fraction tells its numerator and its denominator. -/
theorem text_fraction_injective (h : LegibleLabels n names) (hf : NormalFraction n p q)
    (hg : NormalFraction n p' q')
    (htext : (fraction p q).text names = (fraction p' q').text names) :
    fraction p q = fraction p' q' := by
  cases hq : q.isOne <;> cases hq' : q'.isOne
  case true.true =>
    -- a denominator that is not written is 1 on both sides
    rw [text, text, if_pos hq, if_pos hq'] at htext
    rw [hf.numerator.text_injective hg.numerator h htext, hf.denominator.isOne_iff.mp hq,
      hg.denominator.isOne_iff.mp hq']
  -- a polynomial has no parenthesis
  case true.false =>
    have hmem : '(' ∈ ((fraction p' q').text names).toList := parenthesis_mem_text hq'
    rw [← htext, text, if_pos hq] at hmem
    exact absurd hmem (hf.numerator.notMem_text h (by decide))
  case false.true =>
    have hmem : '(' ∈ ((fraction p q).text names).toList := parenthesis_mem_text hq
    rw [htext, text, if_pos hq'] at hmem
    exact absurd hmem (hg.numerator.notMem_text h (by decide))
  case false.false =>
    have hsep : ")/(".toList = [')', '/', '('] := rfl
    have hclosed {p : Polynomial} (hp : p.WellFormed n) : ')' ∉ ("(" ++ p.text names).toList := by
      rw [String.toList_append, List.mem_append, not_or]
      exact ⟨by decide, hp.notMem_text h (by decide)⟩
    rw [text_fraction_of_ne_one hq, text_fraction_of_ne_one hq'] at htext
    obtain ⟨hnum, hden⟩ :=
      Texts.append_injective hsep (hclosed hf.numerator) (hclosed hg.numerator) htext
    rw [hf.numerator.text_injective hg.numerator h ((String.append_right_inj _).mp hnum),
      hf.denominator.text_injective hg.denominator h ((String.append_left_inj _).mp hden)]

/-- The values that are not finite have texts of their own. -/
theorem text_fraction_notMem (h : LegibleLabels n names) (hf : NormalFraction n p q) :
    (fraction p q).text names ∉ ["NaN", "Inf", "-Inf"] := by
  cases hq : q.isOne
  case true =>
    rw [text, if_pos hq]
    exact hf.numerator.text_notMem h
  case false =>
    have hnone : ∀ s ∈ ["NaN", "Inf", "-Inf"], '(' ∉ s.toList := by decide
    exact fun hmem => hnone _ hmem (parenthesis_mem_text hq)

/-- **A function in normal form can be read off its text.** -/
theorem InNormalForm.text_injective (h : LegibleLabels n names) (hf : f.InNormalForm n)
    (hg : g.InNormalForm n) (htext : f.text names = g.text names) : f = g := by
  rcases f with ⟨p, q⟩ | _ | _ | _ <;> rcases g with ⟨p', q'⟩ | _ | _ | _
  case fraction.fraction => exact text_fraction_injective h hf hg htext
  -- a fraction and a value that is not finite
  case fraction.nan | fraction.posInf | fraction.negInf =>
    refine absurd ?_ (text_fraction_notMem h hf)
    rw [htext]
    simp [text]
  case nan.fraction | posInf.fraction | negInf.fraction =>
    refine absurd ?_ (text_fraction_notMem h hg)
    rw [← htext]
    simp [text]
  -- two values that are not finite
  all_goals first
    | rfl
    | exact absurd htext (by simp [text])

end RationalFunction

namespace Engine

/-- **The text of a function identifies it** among the functions that the engine can make, both
with legible names of the parameters and with those that are used where none are given. -/
theorem text_identifies (e : Engine) :
    (∀ names, Texts.LegibleNames e.numVars names →
      {f | e.Constructible f}.InjOn (RationalFunction.text names)) ∧
    Texts.LegibleNames e.numVars (Texts.defaultNames e.numVars) ∧
    {f | e.Constructible f}.InjOn (RationalFunction.text []) := by
  have hlabels {names : List String} (h : Monomial.LegibleLabels e.numVars names) :
      {f | e.Constructible f}.InjOn (RationalFunction.text names) := fun f hf g hg htext =>
    (constructible_inNormalForm hf).text_injective h (constructible_inNormalForm hg) htext
  -- labels are legible in both cases: chosen names, or numbers where there are none
  exact ⟨fun names hnames => hlabels (Monomial.legibleLabels_of_names hnames),
    Texts.legibleNames_default e.numVars, hlabels (Monomial.legibleLabels_nil e.numVars)⟩

/-- Half of a parameter `a/b` is not written like half of `a` over `b`. -/
theorem text_identifies_slash :
    Texts.LegibleNames 3 ["a", "b", "a/b"] ∧
      (ofNames ["a", "b", "a/b"]).Constructible (.ofPolynomial 3 (.ofTerms 3 [([0, 0, 1], 1/2)])) ∧
      (ofNames ["a", "b", "a/b"]).Constructible
        (.fraction (.ofTerms 3 [([1, 0, 0], 1/2)]) (.ofTerms 3 [([0, 1, 0], 1)])) ∧
      RationalFunction.text ["a", "b", "a/b"] (.ofPolynomial 3 (.ofTerms 3 [([0, 0, 1], 1/2)])) ≠
        RationalFunction.text ["a", "b", "a/b"]
          (.fraction (.ofTerms 3 [([1, 0, 0], 1/2)]) (.ofTerms 3 [([0, 1, 0], 1)])) := by
  have hnames : Texts.LegibleNames 3 ["a", "b", "a/b"] := ⟨rfl, by decide, by decide⟩
  have hproduct : (ofNames ["a", "b", "a/b"]).Constructible
      (.ofPolynomial 3 (.ofTerms 3 [([0, 0, 1], 1/2)])) :=
    .polynomial (Polynomial.wellFormed_ofTerms (by decide))
  have hp : (Polynomial.ofTerms 3 [([1, 0, 0], 1/2)]).WellFormed 3 :=
    Polynomial.wellFormed_ofTerms (by decide)
  have hq : (Polynomial.ofTerms 3 [([0, 1, 0], 1)]).WellFormed 3 :=
    Polynomial.wellFormed_ofTerms (by decide)
  have hquotient : (ofNames ["a", "b", "a/b"]).Constructible
      (.fraction (.ofTerms 3 [([1, 0, 0], 1/2)]) (.ofTerms 3 [([0, 1, 0], 1)])) :=
    .fraction hp hq (by decide +kernel)
  refine ⟨hnames, hproduct, hquotient, fun htext => ?_⟩
  have hsame := (text_identifies (ofNames ["a", "b", "a/b"])).1 _ hnames hproduct hquotient htext
  exact absurd hsame (by decide +kernel)

example : RationalFunction.text ["a", "b", "a/b"]
    (.fraction (.ofTerms 3 [([1, 0, 0], 1/2)]) (.ofTerms 3 [([0, 1, 0], 1)])) = "(1/2*a)/(b)" := by
  decide +kernel

end Engine

end FunctionCache
