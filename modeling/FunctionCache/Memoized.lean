/-!
# Memoized operations

Sums, products and closures are the operations whose results a cache remembers.
`Tally α` holds a value in `α` for each of them.
-/

namespace FunctionCache

/-- The operations that a cache remembers the results of. -/
inductive Memoized
  | add
  | multiply
  | star
deriving DecidableEq, Repr

namespace Memoized

/-- All memoized operations, in the order of their reports. -/
def all : List Memoized := [.add, .multiply, .star]

/-- The name of the operation in reports and messages. -/
def name : Memoized → String
  | .add => "add"
  | .multiply => "multiply"
  | .star => "star"

end Memoized

/-- A value for each memoized operation. -/
structure Tally (α : Type) where
  add : α
  multiply : α
  star : α
deriving DecidableEq, Repr

namespace Tally

/-- The same value for each operation. -/
def replicate {α : Type} (x : α) : Tally α := ⟨x, x, x⟩

/-- The value of one operation. -/
def get {α : Type} (t : Tally α) : Memoized → α
  | .add => t.add
  | .multiply => t.multiply
  | .star => t.star

/-- Changes the value of one operation. -/
def modify {α : Type} (t : Tally α) (op : Memoized) (f : α → α) : Tally α :=
  match op with
  | .add => { t with add := f t.add }
  | .multiply => { t with multiply := f t.multiply }
  | .star => { t with star := f t.star }

/-- The values in the order of `Memoized.all`. -/
def toList {α : Type} (t : Tally α) : List α := Memoized.all.map t.get

end Tally

end FunctionCache
