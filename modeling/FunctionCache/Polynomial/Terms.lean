import FunctionCache.Monomial

/-!
# Terms of a polynomial

Lists of terms in ascending order of their monomials and without zero
coefficients. A coefficient changes in one way only, by `Terms.alter`, which
keeps both properties: a coefficient that becomes 0 takes its term away.

* `Terms.coeff` — the view: the coefficient of each monomial;
* `Terms.coeff_alter` — altering changes one coefficient and no other.
-/

namespace FunctionCache

/-- A monomial and its coefficient. -/
abbrev Term := Monomial × Rat

namespace Terms

/-- Ascending monomials. -/
def Sorted (ts : List Term) : Prop := ts.Pairwise fun s t => s.1 < t.1

/-- No coefficient is 0. -/
def Nonzero (ts : List Term) : Prop := ∀ t ∈ ts, t.2 ≠ 0

/-- The coefficient of `m`, 0 when no term has it. -/
def coeff (ts : List Term) (m : Monomial) : Rat :=
  ((ts.find? fun t => t.1 == m).map Prod.snd).getD 0

/-- The term of `m` and `c` before `ts`, unless `c` is 0. -/
def consNonzero (m : Monomial) (c : Rat) (ts : List Term) : List Term :=
  if c = 0 then ts else (m, c) :: ts

/-- Changes the coefficient of `m` by `f`. -/
def alter (m : Monomial) (f : Rat → Rat) : List Term → List Term
  | [] => consNonzero m (f 0) []
  | t :: ts =>
    if t.1 < m then t :: alter m f ts
    else if t.1 = m then consNonzero m (f t.2) ts
    else consNonzero m (f 0) (t :: ts)

/-- The coefficients of the first list are `r` times those of the second, on equal monomials. -/
def proportional (r : Rat) : List Term → List Term → Bool
  | [], [] => true
  | s :: ss, t :: ts => s.1 == t.1 && s.2 / t.2 == r && proportional r ss ts
  | _, _ => false

/-! ## Order and zeros -/

/-- A term that comes before all others can be put in front of them. -/
private theorem sorted_consNonzero {m : Monomial} {c : Rat} {ts : List Term}
    (hs : Sorted ts) (hm : ∀ t ∈ ts, m < t.1) : Sorted (consNonzero m c ts) := by
  unfold consNonzero
  split
  · exact hs
  · exact List.pairwise_cons.mpr ⟨hm, hs⟩

/-- A term is put in front only if its coefficient is not 0. -/
private theorem nonzero_consNonzero {m : Monomial} {c : Rat} {ts : List Term}
    (hn : Nonzero ts) : Nonzero (consNonzero m c ts) := by
  unfold consNonzero
  split
  · exact hn
  · rename_i hc
    intro t ht
    rcases List.mem_cons.mp ht with rfl | ht
    · exact hc
    · exact hn t ht

/-- Every monomial of the altered list was there before or is the altered one. -/
theorem mem_alter {m : Monomial} {f : Rat → Rat} {ts : List Term} {t : Term}
    (h : t ∈ alter m f ts) : t.1 = m ∨ t ∈ ts := by
  induction ts with
  | nil =>
    unfold alter consNonzero at h
    split at h
    · -- there was no such term, and 0 adds none
      exact Or.inr h
    · exact Or.inl (by rw [List.mem_singleton.mp h])
  | cons s ts ih =>
    unfold alter at h
    split at h
    · rcases List.mem_cons.mp h with rfl | h
      · exact Or.inr (List.mem_cons_self ..)
      · exact (ih h).imp id (List.mem_cons_of_mem _)
    · split at h <;> unfold consNonzero at h <;> split at h
      · -- the coefficient becomes 0, and the term of the monomial is taken away
        exact Or.inr (List.mem_cons_of_mem _ h)
      · exact (List.mem_cons.mp h).imp (fun h => by rw [h]) (List.mem_cons_of_mem _)
      · exact Or.inr h
      · exact (List.mem_cons.mp h).imp (fun h => by rw [h]) id

/-- Altering keeps the monomials in order. -/
theorem sorted_alter {m : Monomial} {f : Rat → Rat} {ts : List Term}
    (hs : Sorted ts) : Sorted (alter m f ts) := by
  induction ts with
  | nil => exact sorted_consNonzero hs (by simp)
  | cons s ts ih =>
    obtain ⟨hlt, hs'⟩ := List.pairwise_cons.mp hs
    unfold alter
    split
    · -- the monomial comes later
      rename_i hsm
      refine List.pairwise_cons.mpr ⟨fun t ht => ?_, ih hs'⟩
      rcases mem_alter ht with h | h
      · rw [h]
        exact hsm
      · exact hlt t h
    · split
      · -- the monomial is that of the first term
        rename_i heq
        exact sorted_consNonzero hs' fun t ht => heq ▸ hlt t ht
      · -- the monomial comes before the first term
        rename_i hnlt hne
        have hms : m < s.1 := Classical.byContradiction fun h =>
          hne (List.le_antisymm (List.not_lt.mp h) (List.not_lt.mp hnlt))
        refine sorted_consNonzero hs fun t ht => ?_
        rcases List.mem_cons.mp ht with rfl | ht
        · exact hms
        · exact List.lt_trans hms (hlt t ht)

/-- Altering leaves no coefficient 0. -/
theorem nonzero_alter {m : Monomial} {f : Rat → Rat} {ts : List Term}
    (hn : Nonzero ts) : Nonzero (alter m f ts) := by
  induction ts with
  | nil => exact nonzero_consNonzero hn
  | cons s ts ih =>
    have hn' : Nonzero ts := fun t ht => hn t (List.mem_cons_of_mem _ ht)
    unfold alter
    split
    · intro t ht
      rcases List.mem_cons.mp ht with rfl | ht
      · exact hn _ (List.mem_cons_self ..)
      · exact ih hn' t ht
    · split
      · exact nonzero_consNonzero hn'
      · exact nonzero_consNonzero hn

theorem sorted_map {g : Rat → Rat} {ts : List Term} (hs : Sorted ts) :
    Sorted (ts.map fun t => (t.1, g t.2)) :=
  List.pairwise_map.mpr hs

/-- A function that keeps numbers from 0 keeps the coefficients from 0. -/
theorem nonzero_map {g : Rat → Rat} (hg : ∀ c, c ≠ 0 → g c ≠ 0) {ts : List Term}
    (hn : Nonzero ts) : Nonzero (ts.map fun t => (t.1, g t.2)) := by
  intro t ht
  obtain ⟨s, hs, rfl⟩ := List.mem_map.mp ht
  exact hg _ (hn s hs)

/-! ## Coefficients -/

@[simp] theorem coeff_nil (k : Monomial) : coeff [] k = 0 := rfl

/-- The coefficient is that of the first term with the monomial. -/
theorem coeff_cons (t : Term) (ts : List Term) (k : Monomial) :
    coeff (t :: ts) k = if t.1 = k then t.2 else coeff ts k := by
  unfold coeff
  rw [List.find?_cons]
  by_cases h : t.1 = k
  · simp [h]
  · rw [if_neg h, beq_eq_false_iff_ne.mpr h]

/-- A monomial that no term has gets the coefficient 0. -/
theorem coeff_eq_zero {ts : List Term} {k : Monomial} (h : ∀ t ∈ ts, t.1 ≠ k) :
    coeff ts k = 0 := by
  induction ts with
  | nil => rfl
  | cons t ts ih =>
    rw [coeff_cons, if_neg (h t (List.mem_cons_self ..))]
    exact ih fun s hs => h s (List.mem_cons_of_mem _ hs)

/-- A coefficient of 0 needs no term: without one the monomial has it anyway. -/
private theorem coeff_consNonzero {m : Monomial} {c : Rat} {ts : List Term}
    (h : ∀ t ∈ ts, t.1 ≠ m) (k : Monomial) :
    coeff (consNonzero m c ts) k = if m = k then c else coeff ts k := by
  unfold consNonzero
  split
  · rename_i hc
    by_cases hk : m = k
    · subst hk
      rw [if_pos rfl, hc, coeff_eq_zero h]
    · rw [if_neg hk]
  · exact coeff_cons ..

/-- Altering changes the coefficient of its monomial and no other. -/
theorem coeff_alter {ts : List Term} (hs : Sorted ts) (m : Monomial) (f : Rat → Rat)
    (k : Monomial) :
    coeff (alter m f ts) k = if m = k then f (coeff ts m) else coeff ts k := by
  induction ts with
  | nil =>
    rw [alter, coeff_consNonzero (by simp)]
    rfl
  | cons s ts ih =>
    obtain ⟨hlt, hs'⟩ := List.pairwise_cons.mp hs
    unfold alter
    split
    · -- the monomial comes later
      rename_i hsm
      have hne : s.1 ≠ m := fun h => List.lt_irrefl m (h ▸ hsm)
      rw [coeff_cons, coeff_cons, coeff_cons, ih hs', if_neg hne]
      by_cases hk : m = k
      · subst hk
        rw [if_neg hne, if_pos rfl, if_pos rfl]
      · rw [if_neg hk, if_neg hk]
    · split
      · -- the monomial is that of the first term, and of no other
        rename_i hsm
        subst hsm
        have hts : ∀ t ∈ ts, t.1 ≠ s.1 := fun t ht h => List.lt_irrefl t.1 (h ▸ hlt t ht)
        rw [coeff_consNonzero hts, coeff_cons, coeff_cons, if_pos rfl]
        by_cases hk : s.1 = k
        · rw [if_pos hk, if_pos hk]
        · rw [if_neg hk, if_neg hk, if_neg hk]
      · -- no term has the monomial
        rename_i hnlt hne
        have hms : m < s.1 := Classical.byContradiction fun h =>
          hne (List.le_antisymm (List.not_lt.mp h) (List.not_lt.mp hnlt))
        have hts : ∀ t ∈ s :: ts, t.1 ≠ m := by
          intro t ht h
          rcases List.mem_cons.mp ht with rfl | ht
          · exact hne h
          · exact List.lt_irrefl m (List.lt_trans hms (h ▸ hlt t ht))
        rw [coeff_consNonzero hts, coeff_eq_zero hts]

end Terms

end FunctionCache
