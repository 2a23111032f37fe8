import Std.Data.HashMap.Lemmas
import FunctionCache.Failure

/-!
# Tables

A table keeps each distinct element once, in the order in which they came, and
gives each a handle: its place, counted from 1. Nothing is ever removed, so a
handle stays valid.

* `Table.intern` — the handle of an element, which is stored if it is new;
* `Table.find?` — the handle of a stored element;
* `Table.resolve?` — the element behind a handle.

The elements are kept twice: in order, and as keys of a hash index that leads
back to their places. That the two agree is part of the type.
-/

namespace FunctionCache

/-- Distinct elements in order of arrival, with a hash index of their places. -/
structure Table (α : Type) [BEq α] [Hashable α] where
  elements : Array α
  index : Std.HashMap α Nat
  /-- The index leads from an element to its place. -/
  index_iff : ∀ (a : α) (i : Nat), index[a]? = some i ↔ elements[i]? = some a

namespace Table

variable {α : Type} [BEq α] [Hashable α]

/-- The table without elements. -/
def empty [LawfulBEq α] : Table α := ⟨#[], ∅, by simp⟩

/-- The number of elements. -/
def size (t : Table α) : Nat := t.elements.size

/-- The elements in order of arrival. -/
def toList (t : Table α) : List α := t.elements.toList

/-- The handle of an element, if it is stored. -/
def find? (t : Table α) (a : α) : Option Handle := t.index[a]?.map Handle.ofPosition

/-- The element behind a handle. -/
def resolve? (t : Table α) (h : Handle) : Option α := h.position?.bind (t.elements[·]?)

/-- The element behind a handle; a handle that stands for nothing is a fault. -/
def resolve (t : Table α) (h : Handle) : Except Fault α :=
  match t.resolve? h with
  | some a => .ok a
  | none => .error (.unknownHandle h)

/-- Adds an element that is not stored. -/
def push [LawfulBEq α] (t : Table α) (a : α) (new : t.index[a]? = none) : Table α where
  elements := t.elements.push a
  index := t.index.insert a t.elements.size
  index_iff b i := by
    rw [Std.HashMap.getElem?_insert, Array.getElem?_push]
    -- the new element leads to the new place, and all others to theirs
    by_cases hab : a = b
    · subst hab
      -- the element is at no earlier place, or the index would have known it
      have absent : ∀ j : Nat, t.elements[j]? ≠ some a := fun j hj => by
        simp [(t.index_iff a j).mpr hj] at new
      by_cases hi : i = t.elements.size
      · simp [hi]
      · simp [hi, absent i, Ne.symm hi]
    · by_cases hi : i = t.elements.size
      · simp [hi, hab, t.index_iff]
      · simp [hi, hab, t.index_iff]

/-- The handle of an element, which is stored if it is new. -/
def intern [LawfulBEq α] (t : Table α) (a : α) : Handle × Table α :=
  match h : t.index[a]? with
  | some i => (Handle.ofPosition i, t)
  | none => (Handle.ofPosition t.size, t.push a h)

/-! ## What the operations do to the elements -/

/-- The list of the elements has the same places as the array. -/
theorem getElem?_toList (t : Table α) (i : Nat) : t.toList[i]? = t.elements[i]? := by
  simp [toList]

/-- An element is found under the handle of its place. -/
theorem find?_eq_some_iff (t : Table α) (a : α) (h : Handle) :
    t.find? a = some h ↔ t.resolve? h = some a := by
  constructor
  · intro hf
    obtain ⟨i, hi, rfl⟩ := Option.map_eq_some_iff.mp hf
    exact (t.index_iff a i).mp hi
  · intro hr
    obtain ⟨i, hi, ha⟩ := Option.bind_eq_some_iff.mp hr
    rw [Handle.position?_eq_some_iff.mp hi]
    exact Option.map_eq_some_iff.mpr ⟨i, (t.index_iff a i).mpr ha, rfl⟩

/-- A stored element keeps its handle and the table. -/
theorem intern_of_find? [LawfulBEq α] {t : Table α} {a : α} {h : Handle}
    (hf : t.find? a = some h) : t.intern a = (h, t) := by
  obtain ⟨i, hi, rfl⟩ := Option.map_eq_some_iff.mp hf
  unfold intern
  split
  · rename_i j hj
    rw [hi] at hj
    rw [Option.some.inj hj]
  · rename_i hj
    -- the index has an entry, so the element is not new
    rw [hi] at hj
    exact absurd hj (by simp)

/-- A new element goes to the end. -/
theorem toList_intern_of_find? [LawfulBEq α] {t : Table α} {a : α} (hf : t.find? a = none) :
    (t.intern a).1 = Handle.ofPosition t.size ∧ (t.intern a).2.toList = t.toList ++ [a] := by
  unfold intern
  split
  · rename_i i hi
    simp [find?, hi] at hf
  · exact ⟨rfl, Array.toList_push ..⟩

end Table

end FunctionCache
