import FunctionCache.Factory
import FunctionCache.Statistics
import FunctionCache.Table

/-!
# Caches of functions

A cache is a factory around another one. It keeps each distinct function of the
factory inside once, in a `Table`, and hands out handles instead: equal
functions have equal handles. Sums, products and closures can also be remembered
by the handles of their operands, so that the same operation on the same
operands is computed once.

* `Cache.memoized` — looks a result up before it is computed, and remembers it
  afterwards; off, it does neither, but what has been remembered stays;
* `Cache.delegate` — resolves the operands, lets the factory inside compute, and
  stores the result; every operation ends here unless it was remembered;
* `Cache.statistics` — the sizes and counts of all parts.

A failed operation stores nothing and remembers nothing: storing is the last
thing that `delegate` does, remembering the last thing that `memoized` does. Only
a difference can leave something behind, the negated second operand.
-/

namespace FunctionCache

/-! ## Memos of the three operations -/

/-- What a cache remembers. Sums and products do not depend on the order of their operands. -/
structure Memos where
  add : Memo PairKey
  multiply : Memo PairKey
  star : Memo Handle

/-- One of the memos, with its kind of key. -/
structure MemoSlot (κ : Type) [BEq κ] [Hashable κ] where
  get : Memos → Memo κ
  set : Memo κ → Memos → Memos

namespace Memos

/-- Three memos without entries or counts. -/
def empty : Memos := ⟨.empty, .empty, .empty⟩

/-- The memo of sums, with a pair of operands as its key. -/
def addSlot : MemoSlot PairKey := ⟨Memos.add, fun memo memos => { memos with add := memo }⟩

/-- The memo of products, with a pair of operands as its key. -/
def multiplySlot : MemoSlot PairKey :=
  ⟨Memos.multiply, fun memo memos => { memos with multiply := memo }⟩

/-- The memo of closures, with the one operand as its key. -/
def starSlot : MemoSlot Handle := ⟨Memos.star, fun memo memos => { memos with star := memo }⟩

end Memos

/-! ## The cache -/

/-- A cache of the functions in `F` of the factory `S`. -/
structure Cache (S F : Type) [BEq F] [Hashable F] where
  context : S
  table : Table F
  /-- The handle of the function 1. -/
  one : Handle
  /-- The handle of the function 0. -/
  zero : Handle
  /-- Whether operations are looked up and remembered. -/
  memoOn : Bool
  memos : Memos

namespace Cache

variable {S F : Type} [BEq F] [LawfulBEq F] [Hashable F]

/-- A cache of the functions of `context` that holds 1 and 0, in this order. -/
def ofContext [FunctionFactory S F] (memoOn : Bool) (context : S) : Cache S F :=
  let (one, context) := FunctionFactory.constant .one context
  let (zero, context) := FunctionFactory.constant .zero context
  let (one, table) := Table.empty.intern one
  let (zero, table) := table.intern zero
  { context, table, one, zero, memoOn, memos := .empty }

/-- Switches memos on or off; what they hold stays. -/
def setMemoOn (on : Bool) (c : Cache S F) : Cache S F := { c with memoOn := on }

/-- Runs a computation of the factory inside. -/
def onContext {α : Type} (act : StateM S α) : StateM (Cache S F) α := fun c =>
  let (x, context) := act c.context
  (x, { c with context })

/-- The handle of a function of the factory inside, which is stored if it is new. -/
def intern (f : F) : StateM (Cache S F) Handle := fun c =>
  let (h, table) := c.table.intern f
  (h, { c with table })

/-- The function of the factory inside behind a handle. -/
def resolve (h : Handle) : Action (Cache S F) F := fun c =>
  ((c.table.resolve h).mapError .fault, c)

/-- Looks a key up in one of the memos. -/
def lookUp {κ : Type} [BEq κ] [Hashable κ] (slot : MemoSlot κ) (k : κ) :
    StateM (Cache S F) (Option Handle) := fun c =>
  let (found, memo) := (slot.get c.memos).get k
  (found, { c with memos := slot.set memo c.memos })

/-- Remembers a result in one of the memos. -/
def remember {κ : Type} [BEq κ] [Hashable κ] (slot : MemoSlot κ) (k : κ) (h : Handle) :
    StateM (Cache S F) Unit :=
  modify fun c => { c with memos := slot.set ((slot.get c.memos).insert k h) c.memos }

/-- The remembered result under a key; without one it is computed, and remembered if that
succeeds. -/
def memoized {κ : Type} [BEq κ] [Hashable κ] (slot : MemoSlot κ) (k : κ)
    (compute : Action (Cache S F) Handle) : Action (Cache S F) Handle := do
  if (← get).memoOn then
    match ← Action.ofState (lookUp slot k) with
    | some h => return h
    | none =>
      -- a failure leaves here, before anything is remembered
      let h ← compute
      Action.ofState (remember slot k h)
      return h
  else compute

/-- Lets the factory inside compute an operation on the resolved operands, and stores the result. -/
def delegate [FunctionFactory S F] (op : Operation Handle) : Action (Cache S F) Handle := do
  let op ← op.mapM resolve
  let f ← ExceptT.mk (onContext (FunctionFactory.apply op).run)
  Action.ofState (intern f)

/-- The sum, by way of its memo. -/
def add [FunctionFactory S F] (a b : Handle) : Action (Cache S F) Handle :=
  memoized Memos.addSlot (.ofPair a b) (delegate (.add a b))

/-- The operation on handles: sums, products and closures by way of their memos, and a difference
as the sum with the negated second operand. -/
def apply [FunctionFactory S F] : Operation Handle → Action (Cache S F) Handle
  | .add a b => add a b
  | .subtract a b => do add a (← delegate (.negate b))
  | .multiply a b => memoized Memos.multiplySlot (.ofPair a b) (delegate (.multiply a b))
  | .star a => memoized Memos.starSlot a (delegate (.star a))
  | op => delegate op

/-- The handle of a constant; 1 and 0 are stored from the beginning. -/
def constant [FunctionFactory S F] : Constant → StateM (Cache S F) Handle
  | .one => return (← get).one
  | .zero => return (← get).zero
  -- a constant that is 0 or 1 by value finds the handle that is there
  | c => do intern (← onContext (FunctionFactory.constant c))

instance [FunctionFactory S F] : FunctionFactory (Cache S F) Handle where
  parameters c := FunctionFactory.parameters c.context
  constant := constant
  apply := apply
  ask q h c := do
    let f ← c.table.resolve h
    FunctionFactory.ask q f c.context

/-- The number of stored functions. -/
def size (c : Cache S F) : Nat := c.table.size

/-- The sizes and counts of the cache. -/
def statistics (c : Cache S F) : Statistics where
  functions := c.size
  add := c.memos.add.counts
  multiply := c.memos.multiply.counts
  star := c.memos.star.counts

end Cache

end FunctionCache
