import FunctionCache.Table

/-!
# Tables only grow

What storing an element does to the elements behind the handles.

* `Table.resolve?_intern` — the handle of an element leads back to it;
* `Table.resolve?_intern_of_resolve?` — handles keep what they stand for;
* `Table.resolve?_intern_cases` — only the new handle can stand for something new;
* `Table.intern_of_resolve?` — an element that is there already changes nothing.
-/

namespace FunctionCache.Table

variable {α : Type} [BEq α] [Hashable α]

/-- A handle stands for the element at its position in the list. -/
theorem resolve?_eq_some_iff {t : Table α} {h : Handle} {a : α} :
    t.resolve? h = some a ↔ ∃ i, h = Handle.ofPosition i ∧ t.toList[i]? = some a := by
  simp only [resolve?, Option.bind_eq_some_iff, Handle.position?_eq_some_iff, getElem?_toList]

/-- A handle is resolved without a fault exactly if it stands for something. -/
theorem resolve_eq_ok {t : Table α} {h : Handle} {a : α} :
    t.resolve h = .ok a ↔ t.resolve? h = some a := by
  unfold resolve
  cases t.resolve? h <;> simp

theorem isOk_resolve (t : Table α) (h : Handle) :
    (t.resolve h).isOk = (t.resolve? h).isSome := by
  unfold resolve
  cases t.resolve? h <;> rfl

variable [LawfulBEq α]

@[simp] theorem resolve?_empty (h : Handle) : (empty : Table α).resolve? h = none := by
  unfold resolve? empty
  cases h.position? <;> rfl

/-- Storing what is stored gives its handle and changes nothing. -/
theorem intern_of_resolve? {t : Table α} {a : α} {h : Handle} (hr : t.resolve? h = some a) :
    t.intern a = (h, t) :=
  intern_of_find? ((find?_eq_some_iff t a h).mpr hr)

/-- The handle of a stored element leads back to it. -/
@[simp] theorem resolve?_intern (t : Table α) (a : α) :
    (t.intern a).2.resolve? (t.intern a).1 = some a := by
  cases hf : t.find? a with
  | some h =>
    rw [intern_of_find? hf]
    exact (find?_eq_some_iff t a h).mp hf
  | none =>
    -- the element is the last one
    obtain ⟨hhandle, hlist⟩ := toList_intern_of_find? hf
    refine resolve?_eq_some_iff.mpr ⟨t.size, hhandle, ?_⟩
    rw [hlist]
    exact List.getElem?_concat_length

/-- Handles keep what they stand for. -/
theorem resolve?_intern_of_resolve? {t : Table α} {h : Handle} {b : α}
    (hr : t.resolve? h = some b) (a : α) : (t.intern a).2.resolve? h = some b := by
  cases hf : t.find? a with
  | some h' =>
    rw [intern_of_find? hf]
    exact hr
  | none =>
    obtain ⟨i, rfl, hi⟩ := resolve?_eq_some_iff.mp hr
    refine resolve?_eq_some_iff.mpr ⟨i, rfl, ?_⟩
    -- old positions are not touched when the list gets longer
    obtain ⟨hlt, -⟩ := List.getElem?_eq_some_iff.mp hi
    rw [(toList_intern_of_find? hf).2, List.getElem?_append_left hlt]
    exact hi

/-- Only the handle of the stored element can stand for something that was not there before. -/
theorem resolve?_intern_cases {t : Table α} {a b : α} {h : Handle}
    (hr : (t.intern a).2.resolve? h = some b) :
    t.resolve? h = some b ∨ h = (t.intern a).1 ∧ b = a := by
  cases hf : t.find? a with
  | some h' =>
    rw [intern_of_find? hf] at hr
    exact Or.inl hr
  | none =>
    obtain ⟨hhandle, hlist⟩ := toList_intern_of_find? hf
    obtain ⟨i, rfl, hi⟩ := resolve?_eq_some_iff.mp hr
    rw [hlist] at hi
    rcases Nat.lt_or_ge i t.toList.length with hlt | hge
    · rw [List.getElem?_append_left hlt] at hi
      exact Or.inl (resolve?_eq_some_iff.mpr ⟨i, rfl, hi⟩)
    · -- past the old elements there is only the new one
      rw [List.getElem?_append_right hge, List.getElem?_singleton] at hi
      split at hi
      · rename_i hzero
        have hsize : i = t.size := by
          have : t.toList.length = t.size := by simp [toList, size]
          omega
        exact Or.inr ⟨by rw [hhandle, hsize], (Option.some.inj hi).symm⟩
      · cases hi

end FunctionCache.Table
