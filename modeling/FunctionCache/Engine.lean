import FunctionCache.Factory
import FunctionCache.RationalFunction.Arithmetic

/-!
# The engine of rational functions

The factory that computes: it interprets constants, operations and queries by
rational functions of its parameters and keeps no other state.
-/

namespace FunctionCache

/-- A factory of rational functions of these parameters. -/
structure Engine where
  parameters : List Parameter

namespace Engine

/-- Parameters between 0 and 1 with these names. -/
def ofNames (names : List String) : Engine := ⟨names.map Parameter.probability⟩

/-- Parameters with these names and bounds. -/
def ofBounds (names : List String) (lowers uppers : List Rat) : Except FunctionError Engine :=
  return ⟨← Parameter.listOfBounds names lowers uppers⟩

/-- The number of parameters. -/
def numVars (e : Engine) : Nat := e.parameters.length

/-- The names of the parameters. -/
def names (e : Engine) : List String := e.parameters.map Parameter.name

/-- The text of a function with the names of the parameters. -/
def format (e : Engine) (f : RationalFunction) : String := f.text e.names

/-- The function of a polynomial. -/
def ofPolynomial (e : Engine) (p : Polynomial) : RationalFunction :=
  RationalFunction.ofPolynomial e.numVars p

/-- The rational function that a constant stands for. -/
def constant (e : Engine) : Constant → RationalFunction
  | .one => .one e.numVars
  | .zero => .zero e.numVars
  | .nan => .nan
  | .posInf => .posInf
  | .negInf => .negInf
  | .rational q => .constant e.numVars q

/-- The parameter with this index as a function. -/
def parameter (e : Engine) (index : Nat) : Except Failure RationalFunction :=
  if index < e.numVars then return e.ofPolynomial (← Polynomial.var e.numVars index)
  else throw (.error (.unknownVariable index e.numVars))

/-- The result of an operation. -/
def compute (e : Engine) : Operation RationalFunction → Except Failure RationalFunction
  | .parameter index => e.parameter index
  | .add a b => a.add b
  | .subtract a b => a.sub b
  | .multiply a b => a.mul b
  | .divide a b => a.div e.numVars b
  | .negate a => return a.neg
  | .star a => a.star e.numVars
  | .constraint a => a.toConstraint e.numVars

/-- Whether a function has a property. -/
def holds (f : RationalFunction) : Property → Bool
  | .isNaN => f.isNaN
  | .isPosInf => f.isPosInf
  | .isNegInf => f.isNegInf
  | .isOne => f.isOne
  | .isZero => f.isZero
  | .isConstant => f.isConstant

/-- The answer to a query. -/
def answer (e : Engine) (f : RationalFunction) : {α : Type} → Query α → Except FunctionError α
  | _, .value point => f.evaluate e.numVars point
  | _, .quotient point => f.evaluateUncancelled e.numVars point
  | _, .constantValue => f.toRat e.names
  | _, .check point strict => f.check e.numVars point strict
  | _, .property p => return holds f p

instance : FunctionFactory Engine RationalFunction where
  parameters := Engine.parameters
  constant c e := (e.constant c, e)
  apply op := fun e => (e.compute op, e)
  ask q f e := (e.answer f q).mapError .error

end Engine

end FunctionCache
