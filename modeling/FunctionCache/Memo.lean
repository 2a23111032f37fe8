import Std.Data.HashMap.Lemmas
import FunctionCache.Handle

/-!
# Memos

A memo remembers results under keys and counts how often it was asked with and
without success. Entries are never dropped; a later one for the same key
replaces the earlier.
-/

namespace FunctionCache

/-- Remembered results, and the numbers of successful and of vain look-ups. -/
structure Memo (κ : Type) [BEq κ] [Hashable κ] where
  entries : Std.HashMap κ Handle
  hits : Nat
  misses : Nat

namespace Memo

variable {κ : Type} [BEq κ] [Hashable κ]

/-- Nothing remembered and nothing counted. -/
def empty : Memo κ := ⟨∅, 0, 0⟩

/-- The result remembered under a key; the look-up is counted. -/
def get (m : Memo κ) (k : κ) : Option Handle × Memo κ :=
  match m.entries[k]? with
  | some h => (some h, { m with hits := m.hits + 1 })
  | none => (none, { m with misses := m.misses + 1 })

/-- Remembers a result under a key. -/
def insert (m : Memo κ) (k : κ) (h : Handle) : Memo κ :=
  { m with entries := m.entries.insert k h }

/-- The number of entries. -/
def size (m : Memo κ) : Nat := m.entries.size

/-- Nothing is remembered. -/
def isEmpty (m : Memo κ) : Bool := m.entries.isEmpty

/-- A look-up finds what is stored, whatever has been counted. -/
theorem get_fst (m : Memo κ) (k : κ) : (m.get k).1 = m.entries[k]? := by
  unfold get
  split <;> simp [*]

@[simp] theorem entries_get (m : Memo κ) (k : κ) : (m.get k).2.entries = m.entries := by
  unfold get
  split <;> rfl

@[simp] theorem entries_insert (m : Memo κ) (k : κ) (h : Handle) :
    (m.insert k h).entries = m.entries.insert k h := rfl

/-- A look-up is counted once, as a hit if it finds a result. -/
theorem hits_get (m : Memo κ) (k : κ) :
    (m.get k).2.hits = m.hits + if (m.get k).1.isSome then 1 else 0 := by
  unfold get
  cases m.entries[k]? <;> simp

/-- A look-up is counted once, as a miss if it finds nothing. -/
theorem misses_get (m : Memo κ) (k : κ) :
    (m.get k).2.misses = m.misses + if (m.get k).1.isNone then 1 else 0 := by
  unfold get
  cases m.entries[k]? <;> simp

variable [LawfulBEq κ] [LawfulHashable κ]

/-- An inserted result is found under its key and under no other. -/
theorem get_insert (m : Memo κ) (k l : κ) (h : Handle) :
    ((m.insert k h).get l).1 = if k == l then some h else (m.get l).1 := by
  rw [get_fst, get_fst, entries_insert, Std.HashMap.getElem?_insert]

/-- A result under a key that has none is one more entry. -/
theorem size_insert (m : Memo κ) (k : κ) (h : Handle) :
    (m.insert k h).size = if (m.get k).1.isSome then m.size else m.size + 1 := by
  rw [get_fst, size, entries_insert, Std.HashMap.size_insert]
  simp only [Std.HashMap.mem_iff_isSome_getElem?, size]

end Memo

end FunctionCache
