import Std.Data.String.ToInt
import Mathlib.Data.List.Nodup
import Mathlib.Data.Rat.Defs
import FunctionCache.Rational

/-!
# Texts that can be read in one way

A text made of pieces with a separator between them has only one reading if no
piece contains the first character of the separator. Numbers are written with
digits, `-` and `/` only and begin with a digit or `-`, so that they can be told
from names and from what stands next to them.

* `Texts.append_injective`, `intercalate_injective` — the pieces of a text;
* `Texts.startsNumber` — the test for numbers;
* `Rational.text_injective` — the number behind a text;
* `Texts.Legible`, `LegibleNames` — names that cannot be taken for anything else.
-/

namespace FunctionCache

namespace Texts

/-! ## Separators -/

/-- The first separator ends the first piece. -/
theorem append_cons_injective {α : Type} {c : α} {xs ys us vs : List α} (hx : c ∉ xs)
    (hy : c ∉ ys) (h : xs ++ c :: us = ys ++ c :: vs) : xs = ys ∧ us = vs := by
  -- the mark ends both lists at the same place, since it does not occur before
  induction xs generalizing ys with
  | nil =>
    cases ys with
    | nil => exact ⟨rfl, (List.cons.inj h).2⟩
    | cons y ys =>
      obtain ⟨rfl, -⟩ := List.cons.inj h
      exact absurd List.mem_cons_self hy
  | cons x xs ih =>
    cases ys with
    | nil =>
      obtain ⟨rfl, -⟩ := List.cons.inj h
      exact absurd List.mem_cons_self hx
    | cons y ys =>
      obtain ⟨hxy, htail⟩ := List.cons.inj h
      obtain ⟨hxs, hus⟩ :=
        ih (mt (List.mem_cons_of_mem x) hx) (mt (List.mem_cons_of_mem y) hy) htail
      exact ⟨by rw [hxy, hxs], hus⟩

/-- A map that is injective on the elements of two lists tells the lists apart. -/
theorem map_injective {α β : Type} {f : α → β} {xs ys : List α}
    (hf : ∀ x ∈ xs, ∀ y ∈ ys, f x = f y → x = y) (h : xs.map f = ys.map f) : xs = ys := by
  induction xs generalizing ys with
  | nil => exact (List.map_eq_nil_iff.mp h.symm).symm
  | cons x xs ih =>
    cases ys with
    | nil => cases h
    | cons y ys =>
      obtain ⟨hxy, htail⟩ := List.cons.inj h
      rw [hf x List.mem_cons_self y List.mem_cons_self hxy]
      exact congrArg _ (ih (fun x hx y hy =>
        hf x (List.mem_cons_of_mem _ hx) y (List.mem_cons_of_mem _ hy)) htail)

section

variable {sep : String} {c : Char} {cs : List Char}

/-- A text without the first character of a separator is one piece. -/
theorem ne_append (hsep : sep.toList = c :: cs) {x : String} (hx : c ∉ x.toList) (y u : String) :
    x ≠ y ++ sep ++ u := by
  rintro rfl
  simp [String.toList_append, hsep] at hx

/-- A separator whose first character occurs in neither of the texts before it. -/
theorem append_injective (hsep : sep.toList = c :: cs) {x y u v : String} (hx : c ∉ x.toList)
    (hy : c ∉ y.toList) (h : x ++ sep ++ u = y ++ sep ++ v) : x = y ∧ u = v := by
  have hlist := congrArg String.toList h
  simp only [String.toList_append, hsep, List.append_assoc, List.cons_append] at hlist
  obtain ⟨hxy, hrest⟩ := append_cons_injective hx hy hlist
  exact ⟨String.toList_inj.mp hxy, String.toList_inj.mp (List.append_cancel_left hrest)⟩

/-- Pieces without the first character of the separator can be read off a text. -/
theorem intercalate_injective (hsep : sep.toList = c :: cs) {xs ys : List String}
    (hxs : ∀ x ∈ xs, c ∉ x.toList) (hys : ∀ y ∈ ys, c ∉ y.toList) (hx : xs ≠ []) (hy : ys ≠ [])
    (h : sep.intercalate xs = sep.intercalate ys) : xs = ys := by
  -- on the pieces of the first text; each takes a piece off the second
  induction xs generalizing ys with
  | nil => exact absurd rfl hx
  | cons x xs ih =>
    cases ys with
    | nil => exact absurd rfl hy
    | cons y ys =>
      obtain ⟨hcx, hxs⟩ := List.forall_mem_cons.mp hxs
      obtain ⟨hcy, hys⟩ := List.forall_mem_cons.mp hys
      by_cases hx' : xs = [] <;> by_cases hy' : ys = []
      · -- one piece on both sides
        rw [hx', hy', String.intercalate_singleton, String.intercalate_singleton] at h
        rw [hx', hy', h]
      · -- a piece would contain a separator
        rw [hx', String.intercalate_singleton, String.intercalate_cons_of_ne_nil hy'] at h
        exact absurd h (ne_append hsep hcx _ _)
      · rw [hy', String.intercalate_singleton, String.intercalate_cons_of_ne_nil hx'] at h
        exact absurd h.symm (ne_append hsep hcy _ _)
      · -- the first pieces end at the first separators
        rw [String.intercalate_cons_of_ne_nil hx', String.intercalate_cons_of_ne_nil hy'] at h
        obtain ⟨hxy, hrest⟩ := append_injective hsep hcx hcy h
        rw [hxy, ih hxs hys hx' hy' hrest]

end

/-- The characters of a text with separators. -/
theorem mem_intercalate {c : Char} {sep : String} {xs : List String}
    (h : c ∈ (sep.intercalate xs).toList) : c ∈ sep.toList ∨ ∃ x ∈ xs, c ∈ x.toList := by
  induction xs with
  | nil => cases h
  | cons x xs ih =>
    by_cases hxs : xs = []
    · rw [hxs, String.intercalate_singleton] at h
      exact .inr ⟨x, List.mem_cons_self, h⟩
    · rw [String.intercalate_cons_of_ne_nil hxs, String.toList_append, String.toList_append,
        List.mem_append, List.mem_append] at h
      -- in the first text, in the separator after it, or later
      rcases h with (hx | hsep) | hrest
      · exact .inr ⟨x, List.mem_cons_self, hx⟩
      · exact .inl hsep
      · exact (ih hrest).imp_right fun ⟨y, hy, hcy⟩ => ⟨y, List.mem_cons_of_mem x hy, hcy⟩

/-! ## Numbers -/

/-- The text begins as numbers do, with a digit or a minus sign. -/
def startsNumber (s : String) : Bool := s.toList.head?.any fun c => c.isDigit || c == '-'

/-- The characters that numbers are written with. -/
def isNumberChar (c : Char) : Bool := c.isDigit || c == '-' || c == '/'

/-- Only the first text counts, unless it is empty. -/
theorem startsNumber_append {s : String} (hs : s ≠ "") (t : String) :
    startsNumber (s ++ t) = startsNumber s := by
  obtain ⟨c, cs, hcs⟩ := List.exists_cons_of_ne_nil (mt String.toList_eq_nil_iff.mp hs)
  rw [startsNumber, startsNumber, String.toList_append, hcs]
  rfl

/-- Natural numbers are written in digits. -/
theorem isDigit_of_mem_nat {n : Nat} {c : Char} (h : c ∈ (toString n).toList) :
    c.isDigit = true := by
  change c ∈ n.repr.toList at h
  rw [Nat.repr_eq_ofList_toDigits, String.toList_ofList] at h
  exact Nat.isDigit_of_mem_toDigits (by decide) (by decide) h

/-- Integers are written with a sign if they are negative. -/
theorem text_int (z : Int) :
    toString z = if 0 ≤ z then toString z.toNat else "-" ++ toString (-z).toNat :=
  Int.repr_eq_if

/-- Integers are written in digits and signs. -/
theorem mem_int {z : Int} {c : Char} (h : c ∈ (toString z).toList) :
    c.isDigit = true ∨ c = '-' := by
  rw [text_int] at h
  split at h
  · exact .inl (isDigit_of_mem_nat h)
  · rw [String.toList_append, List.mem_append] at h
    rcases h with hsign | hdigit
    · exact .inr (List.mem_singleton.mp hsign)
    · exact .inl (isDigit_of_mem_nat hdigit)

/-- Integers are not written as nothing. -/
theorem toList_int_ne_nil (z : Int) : (toString z).toList ≠ [] := by
  rw [text_int]
  split
  · change z.toNat.repr.toList ≠ []
    rw [Nat.repr_eq_ofList_toDigits, String.toList_ofList]
    exact Nat.toDigits_ne_nil
  · simp [String.toList_append]

/-- The text of an integer starts like a number. -/
theorem startsNumber_int (z : Int) : startsNumber (toString z) = true := by
  obtain ⟨c, cs, hcs⟩ := List.exists_cons_of_ne_nil (toList_int_ne_nil z)
  have hc : c ∈ (toString z).toList := hcs ▸ List.mem_cons_self
  unfold startsNumber
  rw [hcs]
  simpa using mem_int hc

end Texts

namespace Rational

theorem text_of_den_ne_one {q : ℚ} (h : q.den ≠ 1) :
    text q = toString q.num ++ "/" ++ toString q.den := if_neg h

/-- Rational numbers are written in digits, signs and slashes. -/
theorem isNumberChar_of_mem_text {q : ℚ} {c : Char} (h : c ∈ (text q).toList) :
    Texts.isNumberChar c = true := by
  have hint {z : ℤ} (hc : c ∈ (toString z).toList) : Texts.isNumberChar c = true := by
    rcases Texts.mem_int hc with hdigit | rfl
    · simp [Texts.isNumberChar, hdigit]
    · rfl
  unfold text at h
  split at h
  · exact hint h
  · rw [String.toList_append, String.toList_append, List.mem_append, List.mem_append] at h
    rcases h with (hnum | hslash) | hden
    · exact hint hnum
    · rw [List.mem_singleton.mp hslash]
      rfl
    · simp [Texts.isNumberChar, Texts.isDigit_of_mem_nat hden]

/-- The text of a rational number starts like a number. -/
theorem startsNumber_text (q : ℚ) : Texts.startsNumber (text q) = true := by
  unfold text
  split
  · exact Texts.startsNumber_int q.num
  · have hne : toString q.num ≠ "" := mt (congrArg String.toList) (Texts.toList_int_ne_nil q.num)
    rw [String.append_assoc, Texts.startsNumber_append hne]
    exact Texts.startsNumber_int q.num

/-- There is no slash in an integer, so it ends the numerator. -/
theorem slash_notMem_int (z : ℤ) : '/' ∉ (toString z).toList := fun h =>
  absurd (Texts.mem_int h) (by decide)

/-- **A rational number can be read off its text**, which is in lowest terms. -/
theorem text_injective : Function.Injective text := by
  intro q r h
  have hslash : "/".toList = ['/'] := rfl
  by_cases hq : q.den = 1 <;> by_cases hr : r.den = 1
  · rw [text, text, if_pos hq, if_pos hr] at h
    exact Rat.ext (Int.repr_injective h) (hq.trans hr.symm)
  · -- only one of the texts has a slash
    rw [text, if_pos hq, text_of_den_ne_one hr] at h
    exact absurd h (Texts.ne_append hslash (slash_notMem_int q.num) _ _)
  · rw [text_of_den_ne_one hq, text, if_pos hr] at h
    exact absurd h.symm (Texts.ne_append hslash (slash_notMem_int r.num) _ _)
  · rw [text_of_den_ne_one hq, text_of_den_ne_one hr] at h
    obtain ⟨hnum, hden⟩ :=
      Texts.append_injective hslash (slash_notMem_int q.num) (slash_notMem_int r.num) h
    exact Rat.ext (Int.repr_injective hnum) (Nat.repr_injective hden)

end Rational

namespace Texts

/-! ## Names -/

/-- The characters that stand around numbers and powers. -/
def marks : List Char := [' ', '*', '(', ')']

/-- A name that cannot be taken for a number, a part of another expression, or a value that is
not finite. -/
structure Legible (name : String) : Prop where
  nonempty : name ≠ ""
  start : startsNumber name = false
  plain : ∀ c ∈ '^' :: marks, c ∉ name.toList
  finite : name ∉ ["NaN", "Inf"]

instance (name : String) : Decidable (Legible name) :=
  decidable_of_iff (name ≠ "" ∧ startsNumber name = false ∧
    (('^' :: marks).all fun c => c ∉ name.toList) = true ∧ name ∉ ["NaN", "Inf"])
    ⟨fun h => ⟨h.1, h.2.1, by simpa using h.2.2.1, h.2.2.2⟩,
      fun h => ⟨h.nonempty, h.start, by simpa using h.plain, h.finite⟩⟩

/-- One legible name for each of `n` parameters, and no name twice. -/
structure LegibleNames (n : Nat) (names : List String) : Prop where
  length : names.length = n
  legible : ∀ name ∈ names, Legible name
  distinct : names.Nodup

/-- The name that a parameter gets from its index. -/
def indexedName (i : Nat) : String := "x" ++ toString i

/-- The names that are used where none are given. -/
def defaultNames (n : Nat) : List String := (List.range n).map indexedName

/-- Different numbers make different names. -/
theorem indexedName_injective : Function.Injective indexedName := by
  intro i j h
  have hlist := congrArg String.toList h
  rw [indexedName, indexedName, String.toList_append, String.toList_append] at hlist
  exact Nat.repr_injective (String.toList_inj.mp (List.append_cancel_left hlist))

/-- Numbered names are legible. -/
theorem legible_indexedName (i : Nat) : Legible (indexedName i) := by
  have hlist : (indexedName i).toList = 'x' :: (toString i).toList := String.toList_append
  refine ⟨fun h => ?_, by rw [startsNumber, hlist]; rfl, fun c hc hmem => ?_, fun h => ?_⟩
  · -- a name is not empty
    rw [h] at hlist
    cases hlist
  · rw [hlist, List.mem_cons] at hmem
    have hother : ∀ c ∈ '^' :: marks, ¬(c = 'x' ∨ c.isDigit = true) := by simp [marks]
    exact hother c hc (hmem.imp_right isDigit_of_mem_nat)
  · simp only [List.mem_cons, List.not_mem_nil, or_false] at h
    rcases h with h | h <;>
      · rw [h] at hlist
        cases hlist

/-- **The default names are legible** and different. -/
theorem legibleNames_default (n : Nat) : LegibleNames n (defaultNames n) where
  length := by rw [defaultNames, List.length_map, List.length_range]
  legible name h := by
    obtain ⟨i, -, rfl⟩ := List.mem_map.mp h
    exact legible_indexedName i
  distinct := List.nodup_range.map indexedName_injective

end Texts

end FunctionCache
