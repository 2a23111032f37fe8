/-!
# Handles

A handle stands for a function stored in a table. Two handles of one table are
equal exactly when their functions are, so comparing functions is comparing
numbers.

* `Handle` — the number of a stored function, counted from 1;
* `PairKey` — two handles without their order, the key under which the result
  of a commutative operation is remembered.
-/

namespace FunctionCache

/-- The number of a stored function; the first function stored gets 1. -/
structure Handle where
  number : Nat
deriving DecidableEq, Hashable, Repr, Inhabited

namespace Handle

/-- The handle of the element at the 0-based position `i`. -/
def ofPosition (i : Nat) : Handle := ⟨i + 1⟩

/-- The 0-based position of the element that the handle stands for; none for number 0. -/
def position? : Handle → Option Nat
  | ⟨0⟩ => none
  | ⟨i + 1⟩ => some i

@[simp] theorem number_ofPosition (i : Nat) : (ofPosition i).number = i + 1 := rfl

@[simp] theorem position?_ofPosition (i : Nat) : (ofPosition i).position? = some i := rfl

/-- Positions and the handles of positions are the same thing, apart from the number 0. -/
theorem position?_eq_some_iff {h : Handle} {i : Nat} :
    h.position? = some i ↔ h = ofPosition i := by
  rcases h with ⟨_ | n⟩ <;> simp [position?, ofPosition]

/-- Handles are written as `#` and their number. -/
def text (h : Handle) : String := "#" ++ toString h.number

end Handle

/-- Two handles without their order: the one with the larger number comes first. -/
structure PairKey where
  first : Handle
  second : Handle
  second_le_first : second.number ≤ first.number
deriving DecidableEq

namespace PairKey

instance : Hashable PairKey where
  hash k := mixHash (hash k.first.number) (hash k.second.number)

/-- The key of the operands `a` and `b`, the same for both orders. -/
def ofPair (a b : Handle) : PairKey :=
  if h : a.number < b.number then ⟨b, a, Nat.le_of_lt h⟩ else ⟨a, b, Nat.le_of_not_lt h⟩

/-- The order in which the operands are given does not matter. -/
theorem ofPair_comm (a b : Handle) : ofPair a b = ofPair b a := by
  rcases a with ⟨m⟩
  rcases b with ⟨n⟩
  rcases Nat.lt_trichotomy m n with h | rfl | h
  · simp [ofPair, h, Nat.lt_asymm h]
  · rfl
  · simp [ofPair, h, Nat.lt_asymm h]

/-- Keys are equal only for the same operands, in one order or the other. -/
theorem ofPair_eq_iff {a b c d : Handle} :
    ofPair a b = ofPair c d ↔ a = c ∧ b = d ∨ a = d ∧ b = c := by
  constructor
  · intro h
    -- in each of the four cases the numbers decide which operand is which
    unfold ofPair at h
    rcases a with ⟨a⟩
    rcases b with ⟨b⟩
    rcases c with ⟨c⟩
    rcases d with ⟨d⟩
    split at h <;> split at h <;> simp only [PairKey.mk.injEq, Handle.mk.injEq] at h ⊢ <;> omega
  · rintro (⟨rfl, rfl⟩ | ⟨rfl, rfl⟩)
    · rfl
    · exact ofPair_comm a b

/-- A key is that of its own two parts. -/
theorem ofPair_first_second (k : PairKey) : ofPair k.first k.second = k := by
  rw [ofPair, dif_neg (Nat.not_lt.mpr k.second_le_first)]

end PairKey

end FunctionCache
