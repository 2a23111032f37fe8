import FunctionCache.Action
import FunctionCache.Parameter
import FunctionCache.Point

/-!
# Function factories

A factory makes functions of a fixed list of parameters, combines them and
answers questions about them. What it does is listed by three types:

* `Constant` — functions that can always be made;
* `Operation F` — ways to make a function from others, which may fail;
* `Query α` — questions about a function with an answer in `α`; they change
  nothing.

`FunctionFactory S F` interprets them: `S` is the state of the factory and `F`
its type of functions. A factory can be built on top of another one, since both
speak of the same constants, operations and queries.
-/

namespace FunctionCache

/-- The functions that a factory makes without fail. -/
inductive Constant
  | one
  | zero
  | nan
  | posInf
  | negInf
  | rational (q : Rat)
deriving DecidableEq

/-- An operation that makes a function from operands in `F`. -/
inductive Operation (F : Type)
  /-- The parameter with this index. -/
  | parameter (index : Nat)
  | add (a b : F)
  | subtract (a b : F)
  | multiply (a b : F)
  | divide (a b : F)
  | negate (a : F)
  /-- The closure `1 / (1 - a)`. -/
  | star (a : F)
  /-- A function with the sign of `a` wherever `a` has a value. -/
  | constraint (a : F)
deriving DecidableEq

/-- Replaces the operands, the left one first. -/
def Operation.mapM {m : Type → Type} [Monad m] {F G : Type} (f : F → m G) :
    Operation F → m (Operation G)
  | parameter i => return parameter i
  | add a b => return add (← f a) (← f b)
  | subtract a b => return subtract (← f a) (← f b)
  | multiply a b => return multiply (← f a) (← f b)
  | divide a b => return divide (← f a) (← f b)
  | negate a => return negate (← f a)
  | star a => return star (← f a)
  | constraint a => return constraint (← f a)

/-- The memoized operation that this is, if it is one. -/
def Operation.memoized? {F : Type} : Operation F → Option Memoized
  | add _ _ => some .add
  | multiply _ _ => some .multiply
  | star _ => some .star
  | _ => none

/-- A property of a function. -/
inductive Property
  | isNaN
  | isPosInf
  | isNegInf
  | isOne
  | isZero
  | isConstant
deriving DecidableEq

/-- Every property. -/
def Property.all : List Property := [.isNaN, .isPosInf, .isNegInf, .isOne, .isZero, .isConstant]

/-- A question about a function. -/
inductive Query : Type → Type
  /-- The value at a point. -/
  | value (point : Point) : Query Rat
  /-- The value at a point as a quotient that is not reduced. -/
  | quotient (point : Point) : Query Ratio
  /-- The value of a constant function. -/
  | constantValue : Query Rat
  /-- Whether the function is at least 0 at a point, or more than 0 if `strict`. -/
  | check (point : Point) (strict : Bool) : Query Bool
  | property (p : Property) : Query Bool

/-- A state `S` that makes and interprets functions in `F`. -/
class FunctionFactory (S : Type) (F : outParam Type) where
  parameters : S → List Parameter
  constant : Constant → StateM S F
  apply : Operation F → Action S F
  ask : {α : Type} → Query α → F → S → Except Failure α

namespace FunctionFactory

variable {S F : Type} [FunctionFactory S F]

/-- The names of the parameters. -/
def names (s : S) : List String := (parameters s).map Parameter.name

/-- The number of parameters. -/
def numVariables (s : S) : Nat := (parameters s).length

end FunctionFactory

end FunctionCache
