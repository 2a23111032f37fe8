import FunctionCache.Failure

/-!
# Points

A point of the parameter space has one rational coordinate for each parameter.
-/

namespace FunctionCache

/-- The coordinates of a point. -/
structure Point where
  coordinates : List Rat
deriving DecidableEq

namespace Point

/-- The point with these integer coordinates. -/
def ofIntegers (coordinates : List Int) : Point := ⟨coordinates.map Rat.ofInt⟩

/-- The number of coordinates. -/
def size (p : Point) : Nat := p.coordinates.length

/-- The coordinate with index `i`. -/
def coordinate (p : Point) (i : Nat) : Except Fault Rat :=
  match p.coordinates[i]? with
  | some c => .ok c
  | none => .error (.indexOutOfBounds p.size i)

/-- The coordinates between parentheses. -/
def text (p : Point) : String :=
  "(" ++ ", ".intercalate (p.coordinates.map Rational.text) ++ ")"

end Point

end FunctionCache
