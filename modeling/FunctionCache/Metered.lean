import FunctionCache.Factory

/-!
# Metered factories

A factory around another one that counts the calls of the memoized operations
and can be told to refuse them. It shows which calls a cache on top of it lets
through. Everything else goes straight to the factory inside, and what that
factory does on its own account is neither counted nor refused.
-/

namespace FunctionCache

/-- A factory with counted calls, some of which it refuses. -/
structure Metered (S : Type) where
  context : S
  calls : Tally Nat
  failing : Tally Bool

namespace Metered

variable {S F : Type}

/-- Nothing counted and nothing refused so far. -/
def ofContext (context : S) : Metered S := ⟨context, .replicate 0, .replicate false⟩

/-- Counts a call of the operation. -/
def count (op : Memoized) (m : Metered S) : Metered S :=
  { m with calls := m.calls.modify op (· + 1) }

/-- Refuses the operation from now on, or lets it through again. -/
def setFailing (op : Memoized) (on : Bool) (m : Metered S) : Metered S :=
  { m with failing := m.failing.modify op fun _ => on }

/-- Runs a computation of the factory inside. -/
def onContext {α : Type} (act : StateM S α) : StateM (Metered S) α := fun m =>
  let (x, context) := act m.context
  (x, { m with context })

/-- Counts a memoized operation and passes it on unless it is to be refused. -/
def apply [FunctionFactory S F] (op : Operation F) : Action (Metered S) F := do
  match op.memoized? with
  | none => pure ()
  | some called =>
    modify (count called)
    if (← get).failing.get called then
      throw (.error (.invalidParameters (.disabled called)))
  ExceptT.mk (onContext (FunctionFactory.apply op).run)

instance [FunctionFactory S F] : FunctionFactory (Metered S) F where
  parameters m := FunctionFactory.parameters m.context
  constant c := onContext (FunctionFactory.constant c)
  apply := apply
  ask q f m := FunctionFactory.ask q f m.context

end Metered

end FunctionCache
