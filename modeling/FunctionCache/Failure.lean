import FunctionCache.Handle
import FunctionCache.Memoized
import FunctionCache.Rational

/-!
# Failures

An operation on functions can go wrong in two ways:

* `FunctionError` — the request has no answer: the caller is told why and can
  go on;
* `Fault` — the computation itself breaks off: an exponent leaves its range, or
  an index or a handle names nothing.

`Failure` is either of them.
-/

namespace FunctionCache

/-- What is wrong with the parameters or the settings of a factory. -/
inductive ParameterProblem
  /-- The lists of names, lower and upper bounds differ in length. -/
  | counts (names lowers uppers : Nat)
  /-- A parameter has no value between its bounds. -/
  | crossedBounds (name : String) (lower upper : Rat)
  /-- The operation has been switched off. -/
  | disabled (operation : Memoized)
deriving DecidableEq

/-- The text of a parameter problem. -/
def ParameterProblem.message : ParameterProblem → String
  | .counts names lowers uppers =>
    s!"{names} parameter names, {lowers} lower bounds, {uppers} upper bounds"
  | .crossedBounds name lower upper =>
    "lower bound " ++ Rational.text lower ++ " of parameter " ++ name ++
      " exceeds upper bound " ++ Rational.text upper
  | .disabled operation => operation.name ++ " disabled"

/-- Why a request on functions has no answer. -/
inductive FunctionError
  | divisionByZero
  /-- The function, given by its text, is not a constant, so it has no rational value. -/
  | notConstant (function : String)
  /-- The value, given by its text, is not a finite number. -/
  | notRational (value : String)
  | unknownVariable (index count : Nat)
  | dimensionMismatch (expected found : Nat)
  | invalidParameters (problem : ParameterProblem)
deriving DecidableEq

/-- The text of a function error. -/
def FunctionError.message : FunctionError → String
  | .divisionByZero => "Division by zero"
  | .notConstant function => "Function " ++ function ++ " is not constant"
  | .notRational value => "Value of " ++ value ++ " is not a rational number"
  | .unknownVariable index count =>
    s!"Variable index {index} out of range, factory has {count} parameters"
  | .dimensionMismatch expected found =>
    s!"Point has {found} dimensions, but {expected} were expected"
  | .invalidParameters problem => "Invalid parameters: " ++ problem.message

/-- Why a computation breaks off. -/
inductive Fault
  /-- The sum of two exponents exceeds the largest exponent. -/
  | exponentOverflow
  /-- The difference of two exponents is negative. -/
  | exponentUnderflow
  | indexOutOfBounds (length index : Nat)
  /-- The handle stands for no stored function. -/
  | unknownHandle (handle : Handle)
deriving DecidableEq

/-- The text of a fault. -/
def Fault.message : Fault → String
  | .exponentOverflow => "attempt to add with overflow"
  | .exponentUnderflow => "attempt to subtract with overflow"
  | .indexOutOfBounds length index =>
    s!"index out of bounds: the len is {length} but the index is {index}"
  | .unknownHandle handle => "unknown function handle " ++ handle.text

/-- What can go wrong in an operation on functions. -/
inductive Failure
  | error (e : FunctionError)
  | fault (f : Fault)
deriving DecidableEq

/-- Computations that can only break off count as computations that may fail. -/
instance : MonadLift (Except Fault) (Except Failure) where
  monadLift x := x.mapError .fault

end FunctionCache
