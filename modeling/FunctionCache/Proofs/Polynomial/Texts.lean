import FunctionCache.Polynomial.Text
import FunctionCache.Proofs.Polynomial.Constants
import FunctionCache.Proofs.Texts

/-!
# The text of a polynomial identifies it

A polynomial is read off its text from the outside in. No term contains a blank,
so the sum falls apart at ` + `; no number and no power contains `*`, so a term
falls apart into a number, unless it is a 1 that is not written, and powers. The
numbers are the pieces that begin like one. A power tells its parameter and its
exponent, and exponents that no power tells are 0.

* `Monomial.LegibleLabels` — what the names of the parameters have to satisfy;
* `Monomial.factors_injective`, `Polynomial.termText_injective` — the parts;
* `Polynomial.WellFormed.text_injective` — the polynomial behind a text;
* `Polynomial.WellFormed.text_notMem` — the texts that no polynomial has.
-/

namespace FunctionCache

namespace Monomial

/-! ## Labels -/

/-- The name of the parameter `i`, which it gets from its index if it has none. -/
def label (names : List String) (i : Nat) : String := names[i]?.getD (Texts.indexedName i)

/-- The labels of `n` parameters are legible and differ. -/
structure LegibleLabels (n : Nat) (names : List String) : Prop where
  legible : ∀ i < n, Texts.Legible (label names i)
  distinct : ∀ i < n, ∀ j < n, label names i = label names j → i = j

/-- Legible names label the parameters legibly. -/
theorem legibleLabels_of_names {n : Nat} {names : List String} (h : Texts.LegibleNames n names) :
    LegibleLabels n names := by
  obtain ⟨rfl, hlegible, hdistinct⟩ := h
  have hlabel (i : Nat) (hi : i < names.length) : label names i = names[i] := by
    rw [label, List.getElem?_eq_getElem hi, Option.getD_some]
  refine ⟨fun i hi => ?_, fun i hi j hj h => ?_⟩
  · rw [hlabel i hi]
    exact hlegible _ (List.getElem_mem hi)
  · rw [hlabel i hi, hlabel j hj] at h
    exact hdistinct.getElem_inj_iff.mp h

/-- Without names the parameters are numbered, which is legible as well. -/
theorem legibleLabels_nil (n : Nat) : LegibleLabels n [] where
  legible i _ := Texts.legible_indexedName i
  distinct _ _ _ _ h := Texts.indexedName_injective h

/-! ## Powers -/

/-- The text of a power, if its exponent is not 0. -/
def power? (name : String) : Nat → Option String
  | 0 => none
  | 1 => some name
  | e => some (name ++ "^" ++ toString e)

/-- A power is written by its name alone, or with an exponent of at least 2. -/
theorem power?_eq_some_iff {name s : String} {e : Nat} :
    power? name e = some s ↔ e = 1 ∧ s = name ∨ 2 ≤ e ∧ s = name ++ "^" ++ toString e := by
  match e with
  | 0 => simp [power?]
  | 1 => simp [power?, eq_comm]
  | e + 2 => simp [power?, eq_comm]

/-- Powers with an exponent other than 0 are written. -/
theorem exists_power? (name : String) {e : Nat} (he : e ≠ 0) : ∃ s, power? name e = some s := by
  match e with
  | 0 => exact absurd rfl he
  | 1 => exact ⟨_, rfl⟩
  | e + 2 => exact ⟨_, rfl⟩

/-- A power tells the parameter and the exponent. -/
theorem power?_injective {x y s : String} {d e : Nat} (hx : Texts.Legible x)
    (hy : Texts.Legible y) (hd : power? x d = some s) (he : power? y e = some s) :
    x = y ∧ d = e := by
  have hcaret : "^".toList = ['^'] := rfl
  have hx' : '^' ∉ x.toList := hx.plain _ List.mem_cons_self
  have hy' : '^' ∉ y.toList := hy.plain _ List.mem_cons_self
  rcases power?_eq_some_iff.mp hd with ⟨hd, hsx⟩ | ⟨-, hsx⟩ <;>
    rcases power?_eq_some_iff.mp he with ⟨he, hsy⟩ | ⟨-, hsy⟩
  · exact ⟨hsx.symm.trans hsy, hd.trans he.symm⟩
  · -- only one of the texts has an exponent
    exact absurd (hsx.symm.trans hsy) (Texts.ne_append hcaret hx' _ _)
  · exact absurd (hsy.symm.trans hsx) (Texts.ne_append hcaret hy' _ _)
  · obtain ⟨hxy, hexponent⟩ := Texts.append_injective hcaret hx' hy' (hsx.symm.trans hsy)
    exact ⟨hxy, Nat.repr_injective hexponent⟩

/-- A power does not look like the beginning of a number. -/
theorem startsNumber_power? {name s : String} {e : Nat} (h : Texts.Legible name)
    (hs : power? name e = some s) : Texts.startsNumber s = false := by
  rcases power?_eq_some_iff.mp hs with ⟨-, rfl⟩ | ⟨-, rfl⟩
  · exact h.start
  · rw [String.append_assoc, Texts.startsNumber_append h.nonempty]
    exact h.start

/-- None of the marks between powers and terms occurs in a power. -/
theorem notMem_power? {name s : String} {e : Nat} (h : Texts.Legible name)
    (hs : power? name e = some s) {c : Char} (hc : c ∈ Texts.marks) : c ∉ s.toList := by
  have hname : c ∉ name.toList := h.plain c (List.mem_cons_of_mem _ hc)
  rcases power?_eq_some_iff.mp hs with ⟨-, rfl⟩ | ⟨-, rfl⟩
  · exact hname
  · intro hmem
    rw [String.toList_append, String.toList_append, List.mem_append, List.mem_append] at hmem
    have hother : ∀ c ∈ Texts.marks, c ≠ '^' ∧ ¬c.isDigit = true := by simp [Texts.marks]
    -- in the name, the caret, or the exponent
    rcases hmem with (hmem | hcaret) | hdigit
    · exact hname hmem
    · exact (hother c hc).1 (List.mem_singleton.mp hcaret)
    · exact (hother c hc).2 (Texts.isDigit_of_mem_nat hdigit)

/-! ## Factors -/

variable {n : Nat} {names : List String} {m k : Monomial}

/-- The factors of a monomial are the powers that are written. -/
theorem mem_factors_iff {s : String} : s ∈ m.factors names ↔
    ∃ e i, m[i]? = some e ∧ power? (label names i) e = some s := by
  change s ∈ m.zipIdx.filterMap (fun t => power? (label names t.2) t.1) ↔ _
  simp only [List.mem_filterMap, Prod.exists, List.mem_zipIdx_iff_getElem?]

/-- A positive exponent is found among the factors. -/
private theorem getElem?_eq_of_factors (h : LegibleLabels n names) (hm : m.length = n)
    (hk : k.length = n) (hfactors : m.factors names = k.factors names) {i e : Nat}
    (he : m[i]? = some e) (hpos : e ≠ 0) : k[i]? = some e := by
  -- its power is also a factor of `k`, where it can come from the same parameter only
  obtain ⟨s, hs⟩ := exists_power? (label names i) hpos
  obtain ⟨d, j, hd, hsd⟩ := mem_factors_iff.mp (hfactors ▸ mem_factors_iff.mpr ⟨e, i, he, hs⟩)
  have hi : i < n := hm ▸ (List.getElem?_eq_some_iff.mp he).1
  have hj : j < n := hk ▸ (List.getElem?_eq_some_iff.mp hd).1
  obtain ⟨hlabel, hexponent⟩ := power?_injective (h.legible i hi) (h.legible j hj) hs hsd
  rw [h.distinct i hi j hj hlabel, hd, hexponent]

/-- **The factors tell the exponents.** -/
theorem factors_injective (h : LegibleLabels n names) (hm : m.length = n) (hk : k.length = n)
    (hfactors : m.factors names = k.factors names) : m = k := by
  refine List.ext_getElem (hm.trans hk.symm) fun i him hik => ?_
  have hmi := List.getElem?_eq_getElem him
  have hki := List.getElem?_eq_getElem hik
  by_cases hpos : m[i] = 0
  · -- then the other exponent is not positive either
    by_contra hne
    have hki0 : k[i] ≠ 0 := fun h0 => hne (hpos.trans h0.symm)
    have := getElem?_eq_of_factors h hk hm hfactors.symm hki hki0
    exact hne (Option.some.inj (hmi.symm.trans this))
  · have := getElem?_eq_of_factors h hm hk hfactors hmi hpos
    exact Option.some.inj (this.symm.trans hki)

/-- The monomial 1 has no factors. -/
theorem factors_one (n : Nat) : (one n).factors names = [] := by
  rw [List.eq_nil_iff_forall_not_mem]
  intro s hs
  obtain ⟨e, i, he, hs⟩ := mem_factors_iff.mp hs
  rw [List.eq_of_mem_replicate (List.mem_of_getElem? he)] at hs
  cases hs

end Monomial

namespace Polynomial

open Monomial (LegibleLabels label)

variable {n : Nat} {names : List String} {p q : Polynomial} {t u : Term}

/-! ## Terms -/

/-- The numbers and powers that make up the text of a term. -/
def pieces (names : List String) (t : Term) : List String :=
  if t.2 = 1 ∧ t.1.factors names ≠ [] then t.1.factors names
  else Rational.text t.2 :: t.1.factors names

/-- A term is never written as nothing. -/
theorem pieces_ne_nil : pieces names t ≠ [] := by
  unfold pieces
  split
  case isTrue h => exact h.2
  case isFalse => exact List.cons_ne_nil _ _

/-- The pieces of a term are its coefficient and its factors. -/
theorem eq_or_mem_factors {s : String} (hs : s ∈ pieces names t) :
    s = Rational.text t.2 ∨ s ∈ t.1.factors names := by
  unfold pieces at hs
  split at hs
  · exact .inr hs
  · exact List.mem_cons.mp hs

/-- The text of a term puts stars between its pieces. -/
theorem termText_eq (names : List String) (t : Term) :
    termText names t = "*".intercalate (pieces names t) := by
  unfold termText pieces
  cases t.1.factors names with
  | nil => simp
  | cons s ss => by_cases h : t.2 = 1 <;> simp [h, String.intercalate_cons_of_ne_nil]

section

variable (h : LegibleLabels n names)
include h

/-- A factor is a power of a legible label. -/
theorem exists_of_mem_factors {m : Monomial} (hm : m.length = n) {s : String}
    (hs : s ∈ m.factors names) :
    ∃ i e, Texts.Legible (label names i) ∧ Monomial.power? (label names i) e = some s := by
  obtain ⟨e, i, he, hs⟩ := Monomial.mem_factors_iff.mp hs
  have hi : i < n := hm ▸ (List.getElem?_eq_some_iff.mp he).1
  exact ⟨i, e, h.legible i hi, hs⟩

/-- The factors can be told from the coefficient: they do not start like a number. -/
theorem filter_pieces (ht : t.1.length = n) :
    (pieces names t).filter (fun s => !Texts.startsNumber s) = t.1.factors names := by
  have hfactors : ∀ s ∈ t.1.factors names, (!Texts.startsNumber s) = true := fun s hs => by
    obtain ⟨i, e, hlegible, hs⟩ := exists_of_mem_factors h ht hs
    rw [Monomial.startsNumber_power? hlegible hs]
    rfl
  unfold pieces
  split
  · exact List.filter_eq_self.mpr hfactors
  · rw [List.filter_cons_of_neg (by simp [Rational.startsNumber_text])]
    exact List.filter_eq_self.mpr hfactors

/-- Among its pieces the number of a term stands out. -/
theorem pieces_injective (ht : t.1.length = n) (hu : u.1.length = n)
    (hpieces : pieces names t = pieces names u) : t = u := by
  -- the powers are the pieces that do not begin like a number
  have hfactors : t.1.factors names = u.1.factors names := by
    rw [← filter_pieces h ht, hpieces, filter_pieces h hu]
  have hmonomial := Monomial.factors_injective h ht hu hfactors
  refine Prod.ext hmonomial ?_
  unfold pieces at hpieces
  rw [hfactors] at hpieces
  -- whether the coefficient is written is a matter of its value alone, now that the powers agree
  split at hpieces <;> split at hpieces
  case isTrue.isTrue ht hu => exact ht.1.trans hu.1.symm
  case isFalse.isFalse => exact Rational.text_injective (List.cons.inj hpieces).1
  -- otherwise one list is longer
  case isTrue.isFalse => exact absurd hpieces.symm (List.cons_ne_self _ _)
  case isFalse.isTrue => exact absurd hpieces (List.cons_ne_self _ _)

/-- None of the marks occurs in a piece. -/
theorem notMem_pieces (ht : t.1.length = n) {s : String} (hs : s ∈ pieces names t) {c : Char}
    (hc : c ∈ Texts.marks) : c ∉ s.toList := by
  rcases eq_or_mem_factors hs with rfl | hs
  · have hother : ∀ c ∈ Texts.marks, ¬Texts.isNumberChar c = true := by
      simp [Texts.marks, Texts.isNumberChar]
    exact mt Rational.isNumberChar_of_mem_text (hother c hc)
  · obtain ⟨i, e, hlegible, hs⟩ := exists_of_mem_factors h ht hs
    exact Monomial.notMem_power? hlegible hs hc

/-- **The text of a term tells its coefficient and its exponents.** -/
theorem termText_injective (ht : t.1.length = n) (hu : u.1.length = n)
    (htext : termText names t = termText names u) : t = u := by
  have hsep : "*".toList = ['*'] := rfl
  have hstar : '*' ∈ Texts.marks := by decide
  rw [termText_eq, termText_eq] at htext
  exact pieces_injective h ht hu <| Texts.intercalate_injective hsep
    (fun s hs => notMem_pieces h ht hs hstar) (fun s hs => notMem_pieces h hu hs hstar)
    pieces_ne_nil pieces_ne_nil htext

/-- The only mark in a term is the star between its pieces. -/
theorem notMem_termText (ht : t.1.length = n) {c : Char} (hc : c ∈ Texts.marks) (hstar : c ≠ '*') :
    c ∉ (termText names t).toList := by
  intro hmem
  rw [termText_eq] at hmem
  rcases Texts.mem_intercalate hmem with hmem | ⟨s, hs, hmem⟩
  · exact hstar (List.mem_singleton.mp hmem)
  · exact notMem_pieces h ht hs hc hmem

end

/-! ## Sums -/

/-- The terms that the text shows: those of the polynomial, or a 0. -/
def shownTerms (p : Polynomial) : List Term :=
  if p.isZero then [(Monomial.one p.numVars, 0)] else p.terms.reverse

/-- The text of a polynomial puts plus signs between the texts of its terms. -/
theorem text_eq (names : List String) (p : Polynomial) :
    p.text names = " + ".intercalate (p.shownTerms.map (termText names)) := by
  unfold text shownTerms
  split
  · -- a term without powers is its coefficient
    rw [List.map_singleton, String.intercalate_singleton, termText, Monomial.factors_one]
    rfl
  · rfl

/-- The polynomial 0 is written, too. -/
theorem shownTerms_ne_nil : p.shownTerms ≠ [] := by
  unfold shownTerms
  split
  case isTrue => exact List.cons_ne_nil _ _
  case isFalse h => simpa [isZero] using h

/-- The terms that are written determine the polynomial. -/
theorem shownTerms_injective (hn : p.numVars = q.numVars) (h : p.shownTerms = q.shownTerms) :
    p = q := by
  -- no polynomial has a term with the coefficient 0
  have hnonzero (p : Polynomial) {m : Monomial} : p.terms.reverse ≠ [(m, 0)] := fun h =>
    p.nonzero (m, 0) (List.mem_reverse.mp (h ▸ List.mem_singleton_self _)) rfl
  have hterms : p.terms = q.terms := by
    unfold shownTerms at h
    split at h <;> split at h
    case isTrue.isTrue hp hq => rw [List.isEmpty_iff.mp hp, List.isEmpty_iff.mp hq]
    case isTrue.isFalse => exact absurd h.symm (hnonzero q)
    case isFalse.isTrue => exact absurd h (hnonzero p)
    case isFalse.isFalse => exact List.reverse_injective h
  exact ext_coeff hn fun k => by rw [coeff, coeff, hterms]

/-- The monomials that are written have an exponent for each parameter. -/
theorem WellFormed.length_of_mem_shownTerms (hp : p.WellFormed n) (ht : t ∈ p.shownTerms) :
    t.1.length = n := by
  unfold shownTerms at ht
  split at ht
  · rw [List.mem_singleton.mp ht, hp.numVars]
    exact List.length_replicate
  · exact (hp.monomial t (List.mem_reverse.mp ht)).length

/-- There are no blanks in terms, so they can be told apart. -/
theorem WellFormed.blank_notMem (hp : p.WellFormed n) (h : LegibleLabels n names) :
    ∀ s ∈ p.shownTerms.map (termText names), ' ' ∉ s.toList := by
  intro s hs
  obtain ⟨t, ht, rfl⟩ := List.mem_map.mp hs
  exact notMem_termText h (hp.length_of_mem_shownTerms ht) (by decide) (by decide)

/-- A sum falls apart into its terms in one way. -/
theorem WellFormed.eq_of_text_eq (hp : p.WellFormed n) (h : LegibleLabels n names)
    {ss : List String} (hss : ss ≠ []) (hblank : ∀ s ∈ ss, ' ' ∉ s.toList)
    (htext : p.text names = " + ".intercalate ss) : p.shownTerms.map (termText names) = ss := by
  rw [text_eq] at htext
  refine Texts.intercalate_injective rfl (fun s hs => ?_) hblank ?_ hss htext
  · exact hp.blank_notMem h s hs
  · exact List.map_eq_nil_iff.not.mpr shownTerms_ne_nil

/-- **A polynomial can be read off its text.** -/
theorem WellFormed.text_injective (hp : p.WellFormed n) (hq : q.WellFormed n)
    (h : LegibleLabels n names) (htext : p.text names = q.text names) : p = q := by
  -- the texts of the terms agree one by one, and each tells its term
  have hterms := hp.eq_of_text_eq h (List.map_eq_nil_iff.not.mpr shownTerms_ne_nil)
    (hq.blank_notMem h) (htext.trans (text_eq names q))
  refine shownTerms_injective (hp.numVars.trans hq.numVars.symm) ?_
  exact Texts.map_injective (fun t ht u hu => termText_injective h
    (hp.length_of_mem_shownTerms ht) (hq.length_of_mem_shownTerms hu)) hterms

/-! ## What the text of a polynomial is not -/

/-- There are no parentheses in the text of a polynomial. -/
theorem WellFormed.notMem_text (hp : p.WellFormed n) (h : LegibleLabels n names) {c : Char}
    (hc : c ∈ ['(', ')']) : c ∉ (p.text names).toList := by
  have hmarks : ∀ c ∈ ['(', ')'], c ∈ Texts.marks ∧ c ≠ '*' ∧ c ∉ " + ".toList := by
    simp [Texts.marks]
  obtain ⟨hmark, hstar, hsep⟩ := hmarks c hc
  rw [text_eq]
  intro hmem
  rcases Texts.mem_intercalate hmem with hmem | ⟨s, hs, hmem⟩
  · exact hsep hmem
  · obtain ⟨t, ht, rfl⟩ := List.mem_map.mp hs
    exact notMem_termText h (hp.length_of_mem_shownTerms ht) hmark hstar hmem

/-- A text of one word is a number or a power. -/
theorem WellFormed.exists_piece (hp : p.WellFormed n) (h : LegibleLabels n names)
    (hblank : ' ' ∉ (p.text names).toList) (hstar : '*' ∉ (p.text names).toList) :
    ∃ t : Term, t.1.length = n ∧ p.text names ∈ pieces names t := by
  -- the text is a sum of one term, and this term a product of one piece
  generalize hs : p.text names = s at hblank hstar ⊢
  rw [← String.intercalate_singleton (s := " + ") (t := s)] at hs
  have hterms := hp.eq_of_text_eq h (List.cons_ne_nil _ _) (by simpa using hblank) hs
  obtain ⟨t, hshown, hterm⟩ := List.map_eq_singleton_iff.mp hterms
  have ht : t.1.length = n := hp.length_of_mem_shownTerms (hshown ▸ List.mem_singleton_self t)
  rw [termText_eq, ← String.intercalate_singleton (s := "*") (t := s)] at hterm
  have hsep : "*".toList = ['*'] := rfl
  have hpieces := Texts.intercalate_injective hsep
    (fun x hx => notMem_pieces h ht hx (by decide)) (by simpa using hstar)
    pieces_ne_nil (List.cons_ne_nil _ _) hterm
  exact ⟨t, ht, hpieces ▸ List.mem_singleton_self s⟩

/-- Values that are not finite have texts of their own. -/
theorem WellFormed.text_notMem (hp : p.WellFormed n) (h : LegibleLabels n names) :
    p.text names ∉ ["NaN", "Inf", "-Inf"] := by
  intro hmem
  have hword : ∀ s ∈ ["NaN", "Inf", "-Inf"], ' ' ∉ s.toList ∧ '*' ∉ s.toList ∧ '^' ∉ s.toList ∧
      s.toList.all Texts.isNumberChar = false ∧
      (s ∈ ["NaN", "Inf"] ∨ Texts.startsNumber s = true) := by decide
  obtain ⟨hblank, hstar, hcaret, hnumber, hspecial⟩ := hword _ hmem
  obtain ⟨t, ht, hpiece⟩ := hp.exists_piece h hblank hstar
  generalize p.text names = s at hpiece hcaret hnumber hspecial
  rcases eq_or_mem_factors hpiece with rfl | hfactor
  · -- no number
    have hall := List.all_eq_true.mpr fun c => Rational.isNumberChar_of_mem_text (q := t.2) (c := c)
    exact Bool.eq_false_iff.mp hnumber hall
  · -- no power
    obtain ⟨i, e, hlegible, hs⟩ := exists_of_mem_factors h ht hfactor
    rcases Monomial.power?_eq_some_iff.mp hs with ⟨-, rfl⟩ | ⟨-, rfl⟩
    · rcases hspecial with hspecial | hstart
      · exact hlegible.finite hspecial
      · exact Bool.eq_false_iff.mp hlegible.start hstart
    · exact Texts.ne_append rfl hcaret _ _ rfl

end Polynomial

end FunctionCache
