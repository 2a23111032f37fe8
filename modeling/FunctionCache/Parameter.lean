import FunctionCache.Failure

/-!
# Parameters

A parameter of the functions has a name and ranges between two bounds.
-/

namespace FunctionCache

/-- A named parameter and the bounds of its values. -/
structure Parameter where
  name : String
  lower : Rat
  upper : Rat
  lower_le_upper : lower ≤ upper

namespace Parameter

/-- A parameter between 0 and 1, such as an unknown probability. -/
def probability (name : String) : Parameter := ⟨name, 0, 1, by decide +kernel⟩

/-- The parameter with these bounds, if they are in order. -/
def ofBounds (name : String) (lower upper : Rat) : Except FunctionError Parameter :=
  if h : lower ≤ upper then .ok ⟨name, lower, upper, h⟩
  else .error (.invalidParameters (.crossedBounds name lower upper))

/-- The parameters given by three lists of one length. -/
def listOfBounds (names : List String) (lowers uppers : List Rat) :
    Except FunctionError (List Parameter) :=
  if names.length ≠ lowers.length ∨ names.length ≠ uppers.length then
    .error (.invalidParameters (.counts names.length lowers.length uppers.length))
  else
    (names.zip (lowers.zip uppers)).mapM fun (name, lower, upper) => ofBounds name lower upper

end Parameter

end FunctionCache
