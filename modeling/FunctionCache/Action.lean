import FunctionCache.Failure

/-!
# Actions

`Action S` is the type of computations on a state `S` that may fail. A failing
action still returns a state: what it did before it failed stays done.
-/

namespace FunctionCache

/-- Computations on a state that may fail; the state survives a failure. -/
abbrev Action (S : Type) := ExceptT Failure (StateM S)

/-- A computation on a state that does not fail. -/
def Action.ofState {S α : Type} (act : StateM S α) : Action S α := ExceptT.lift act

end FunctionCache
