import FunctionCache.Memo
import FunctionCache.Memoized

/-!
# Statistics of a cache

The number of stored functions and, for each memoized operation, the number of
remembered results and of look-ups with and without success.
-/

namespace FunctionCache

/-- The number of entries of a memo and of look-ups with and without success. -/
structure MemoCounts where
  entries : Nat
  hits : Nat
  misses : Nat
deriving DecidableEq, Repr

/-- The counts of a memo. -/
def Memo.counts {κ : Type} [BEq κ] [Hashable κ] (m : Memo κ) : MemoCounts :=
  ⟨m.size, m.hits, m.misses⟩

/-- The number of stored functions and the counts of the three memos. -/
structure Statistics where
  functions : Nat
  add : MemoCounts
  multiply : MemoCounts
  star : MemoCounts
deriving DecidableEq, Repr

namespace Statistics

/-- The counts of one memo. -/
def counts (s : Statistics) : Memoized → MemoCounts
  | .add => s.add
  | .multiply => s.multiply
  | .star => s.star

/-- Every count under its label. -/
def toList (s : Statistics) : List (String × Nat) :=
  ("functions", s.functions) :: Memoized.all.flatMap fun op =>
    let c := s.counts op
    [(op.name ++ " entries", c.entries), (op.name ++ " hits", c.hits),
      (op.name ++ " misses", c.misses)]

end Statistics

end FunctionCache
