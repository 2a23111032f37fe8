import FunctionCache.Proofs.Cache.Memoization
import FunctionCache.Proofs.Layers.Bottom

/-!
# Calls of memoized operations

What one call of a sum, a product or a closure does to the counts of a cache
around the engine. With memos off the call goes to the engine and no count of
the cache changes. With memos on it is a hit, which the memo answers, or a miss,
which goes to the engine and is recorded if the engine succeeds.

* `Memos.counts_ask`, `Memos.counts_record` — what the counts of all memos become;
* `Call` — a call and the cache before it;
* `Call.cases` — the four ways that it can go;
* `Call.calls_after` — when it reaches the engine.
-/

namespace FunctionCache

open LayeredFactory

/-! ## The counts of the three memos -/

namespace Memos

/-- The counts of one memo. -/
def counts (memos : Memos) : Memoized → MemoCounts
  | .add => memos.add.counts
  | .multiply => memos.multiply.counts
  | .star => memos.star.counts

/-- A look-up adds one hit or one miss. -/
private theorem counts_get {κ : Type} [BEq κ] [Hashable κ] (memo : Memo κ) (k : κ) :
    (memo.get k).2.counts = if memo.entries[k]?.isSome then
      { memo.counts with hits := memo.counts.hits + 1 }
    else { memo.counts with misses := memo.counts.misses + 1 } := by
  unfold Memo.get
  cases memo.entries[k]? <;> rfl

/-- A result under a new key adds one entry. -/
private theorem counts_insert {κ : Type} [BEq κ] [LawfulBEq κ] [Hashable κ] [LawfulHashable κ]
    {memo : Memo κ} {k : κ} (hk : memo.entries[k]? = none) (h : Handle) :
    (memo.insert k h).counts = { memo.counts with entries := memo.counts.entries + 1 } := by
  rw [Memo.counts, Memo.size_insert, Memo.get_fst, hk]
  rfl

/-- A look-up is counted as a hit or as a miss, in its own memo. -/
theorem counts_ask (memos : Memos) (k : MemoKey) (m : Memoized) :
    (memos.ask k).counts m = if k.operation = m then
      if (memos.find? k).isSome then { memos.counts m with hits := (memos.counts m).hits + 1 }
      else { memos.counts m with misses := (memos.counts m).misses + 1 }
    else memos.counts m := by
  cases k <;> cases m <;> first | rfl | exact counts_get _ _

/-- A result under a new key is one more entry, in its own memo. -/
theorem counts_record {memos : Memos} {k : MemoKey} (hk : memos.find? k = none) (h : Handle)
    (m : Memoized) :
    (memos.record h k).counts m = if k.operation = m then
      { memos.counts m with entries := (memos.counts m).entries + 1 }
    else memos.counts m := by
  cases k <;> cases m <;> first | rfl | exact counts_insert hk _

end Memos

/-- Changing the value of one operation leaves the others. -/
theorem Tally.get_modify {α : Type} (t : Tally α) (op m : Memoized) (f : α → α) :
    (t.modify op f).get m = if op = m then f (t.get m) else t.get m := by
  cases op <;> cases m <;> rfl

theorem Cache.counts_statistics {S F : Type} [BEq F] [Hashable F] (c : Cache S F) (m : Memoized) :
    c.statistics.counts m = c.memos.counts m := by
  cases m <;> rfl

/-! ## Delegated calls -/

namespace CachedEngine

/-- A delegated sum, product or closure is a call of the engine, unless an operand is missing. -/
theorem calls_delegate_of_memoKey? {op : Operation Handle} {k : MemoKey}
    (hk : op.memoKey? = some k) (c : CachedEngine) :
    calls ((Cache.delegate op).run c).2 =
      if op.operands.all fun h => (c.table.resolve? h).isSome then
        (calls c).modify k.operation (· + 1)
      else calls c := by
  have hoperands := Operation.isOk_mapM c.table.resolve op
  simp only [Table.isOk_resolve] at hoperands
  rw [Cache.run_delegate, ← hoperands]
  cases hop : op.mapM c.table.resolve with
  -- an operand is missing: the engine is not called
  | error e => rfl
  | ok op' =>
    have hmemoized : op'.memoized? = some k.operation :=
      (Operation.memoized?_of_mapM hop).trans (Operation.memoized?_of_memoKey? hk)
    show calls (c.stored ((FunctionFactory.apply op').run c.context)).2 = (calls c).modify _ _
    rw [Metered.run_apply, hmemoized]
    dsimp only
    -- a refused call has been counted as well
    split_ifs
    · rfl
    · cases c.context.context.compute op' <;> rfl

/-- Other operations are no calls. -/
theorem calls_delegate_of_memoKey?_eq_none {op : Operation Handle} (hk : op.memoKey? = none)
    (c : CachedEngine) : calls ((Cache.delegate op).run c).2 = calls c := by
  rw [Cache.run_delegate]
  cases hop : op.mapM c.table.resolve with
  | error e => rfl
  | ok op' =>
    have hmemoized : op'.memoized? = none := by
      rw [Operation.memoized?_of_mapM hop]
      cases op <;> cases hk <;> rfl
    show calls (c.stored ((FunctionFactory.apply op').run c.context)).2 = calls c
    rw [Metered.run_apply, hmemoized]
    dsimp only
    cases c.context.context.compute op' <;> rfl

end CachedEngine

/-! ## Calls -/

/-- A call of a memoized operation of a cache around the engine. -/
structure Call where
  operation : Operation Handle
  /-- The key under which the result is remembered. -/
  key : MemoKey
  memoKey?_operation : operation.memoKey? = some key
  /-- The cache before the call. -/
  before : CachedEngine

namespace Call

/-- What the call returns. -/
def result (x : Call) : Except Failure Handle :=
  ((FunctionFactory.apply x.operation).run x.before).1

/-- The cache after the call. -/
def after (x : Call) : CachedEngine := ((FunctionFactory.apply x.operation).run x.before).2

/-- The call was made with memos on. -/
def isOn (x : Call) : Bool := x.before.memoOn

/-- A memo answers the call. -/
def isHit (x : Call) : Bool := x.isOn && (x.before.memos.find? x.key).isSome

/-- Every operand is a handle of the cache. -/
def hasOperands (x : Call) : Bool :=
  x.operation.operands.all fun h => (x.before.table.resolve? h).isSome

/-- **The ways of a call**: with memos off no memo changes; a hit returns the entry; a miss is
recorded if it succeeds, and otherwise only counted. -/
theorem cases (x : Call) :
    (x.isOn = false ∧ x.after.memos = x.before.memos) ∨
      (∃ h, x.isOn = true ∧ x.before.memos.find? x.key = some h ∧ x.result = .ok h ∧
        x.after.memos = x.before.memos.ask x.key) ∨
      (∃ e, x.isOn = true ∧ x.before.memos.find? x.key = none ∧ x.result = .error e ∧
        x.after.memos = x.before.memos.ask x.key) ∨
      ∃ h, x.isOn = true ∧ x.before.memos.find? x.key = none ∧ x.result = .ok h ∧
        x.after.memos = (x.before.memos.ask x.key).record h x.key := by
  have hmemos := Cache.memos_delegate x.operation
    { x.before with memos := x.before.memos.ask x.key }
  unfold result after isOn
  rw [Cache.run_apply_of_memoKey? x.memoKey?_operation]
  cases hon : x.before.memoOn with
  | false =>
    -- memos off
    rw [if_neg Bool.false_ne_true]
    exact Or.inl ⟨rfl, Cache.memos_delegate _ _⟩
  | true =>
    rw [if_pos rfl]
    refine Or.inr ?_
    cases hfound : x.before.memos.find? x.key with
    | some h =>
      -- hit
      exact Or.inl ⟨h, rfl, rfl, rfl, rfl⟩
    | none =>
      -- miss
      refine Or.inr ?_
      dsimp only
      rw [← hon]
      rcases hrun : (Cache.delegate x.operation).run
        { x.before with memos := x.before.memos.ask x.key } with ⟨e | h, c⟩
      · -- failure
        rw [hrun] at hmemos
        exact Or.inl ⟨e, rfl, rfl, rfl, hmemos⟩
      · -- success
        rw [hrun] at hmemos
        refine Or.inr ⟨h, rfl, rfl, rfl, ?_⟩
        show c.memos.record h x.key = _
        rw [hmemos]

/-- The call goes to the engine: it is no hit, and its operands exist. -/
def reaches (x : Call) : Bool := !x.isHit && x.hasOperands

/-- **A call reaches the engine** once if it is no hit and its operands exist, and otherwise not at
all. -/
theorem calls_after (x : Call) :
    calls x.after =
      if x.reaches then (calls x.before).modify x.key.operation (· + 1) else calls x.before := by
  have hdelegate := CachedEngine.calls_delegate_of_memoKey? x.memoKey?_operation
  unfold after reaches isHit isOn hasOperands
  rw [Cache.run_apply_of_memoKey? x.memoKey?_operation]
  cases x.before.memoOn with
  -- memos off
  | false => exact hdelegate x.before
  | true =>
    cases hfound : x.before.memos.find? x.key with
    -- hit
    | some h => rfl
    | none =>
      -- miss: recording the result is no call
      have hrecorded (y : Except Failure Handle × CachedEngine) :
          calls (Cache.recorded x.key y).2 = calls y.2 := by
        rcases y with ⟨_ | _, _⟩ <;> rfl
      simp only [if_true, Option.isSome_none, Bool.and_false, Bool.not_false, Bool.true_and]
      rw [hrecorded]
      exact hdelegate _

/-- The call is a call of this operation. -/
def isOf (m : Memoized) (x : Call) : Bool := x.key.operation == m

/-- The call returns a handle. -/
def succeeds (x : Call) : Bool := x.result.isOk

/-- **The counts of a cache after a call**: one more hit, one more miss or neither, and one more
entry if a miss succeeds. -/
theorem counts_after (x : Call) (m : Memoized) :
    x.after.statistics.counts m =
      { entries := (x.before.statistics.counts m).entries +
          if x.isOf m && x.isOn && !x.isHit && x.succeeds then 1 else 0
        hits := (x.before.statistics.counts m).hits + if x.isOf m && x.isHit then 1 else 0
        misses := (x.before.statistics.counts m).misses +
          if x.isOf m && x.isOn && !x.isHit then 1 else 0 } := by
  have hasked := x.before.memos.counts_ask x.key m
  rw [Cache.counts_statistics, Cache.counts_statistics]
  cases hof : x.isOf m with
  | true =>
    rw [if_pos (beq_iff_eq.mp hof)] at hasked
    rcases x.cases with ⟨hon, hmemos⟩ | ⟨h, hon, hfound, hresult, hmemos⟩ |
      ⟨e, hon, hfound, hresult, hmemos⟩ | ⟨h, hon, hfound, hresult, hmemos⟩
    · -- memos off
      have hhit : x.isHit = false := by rw [isHit, hon, Bool.false_and]
      rw [hmemos]
      simp [hon, hhit]
    · -- hit
      have hhit : x.isHit = true := by rw [isHit, hon, hfound]; rfl
      rw [hmemos, hasked, hfound]
      simp [hhit]
    · -- miss without result
      have hhit : x.isHit = false := by rw [isHit, hfound, Option.isSome_none, Bool.and_false]
      have hfails : x.succeeds = false := by rw [succeeds, hresult]; rfl
      rw [hmemos, hasked, hfound]
      simp [hon, hhit, hfails]
    · -- miss with a result: the entry is new
      have hhit : x.isHit = false := by rw [isHit, hfound, Option.isSome_none, Bool.and_false]
      have hsucceeds : x.succeeds = true := by rw [succeeds, hresult]; rfl
      have hnew := (x.before.memos.find?_ask x.key x.key).trans hfound
      rw [hmemos, Memos.counts_record hnew, if_pos (beq_iff_eq.mp hof), hasked, hfound]
      simp [hon, hhit, hsucceeds]
  | false =>
    -- the memo of another operation
    have hne : x.key.operation ≠ m := beq_eq_false_iff_ne.mp hof
    rw [if_neg hne] at hasked
    rcases x.cases with ⟨-, hmemos⟩ | ⟨h, -, -, -, hmemos⟩ | ⟨e, -, -, -, hmemos⟩ |
      ⟨h, -, hfound, -, hmemos⟩
    · rw [hmemos]
      rfl
    · rw [hmemos, hasked]
      rfl
    · rw [hmemos, hasked]
      rfl
    · have hnew := (x.before.memos.find?_ask x.key x.key).trans hfound
      rw [hmemos, Memos.counts_record hnew, if_neg hne, hasked]
      rfl

/-- The calls of one operation that the engine has seen: one more or none. -/
theorem get_calls_after (x : Call) (m : Memoized) :
    (calls x.after).get m = (calls x.before).get m + if x.isOf m && x.reaches then 1 else 0 := by
  rw [calls_after]
  cases x.reaches with
  | false => simp
  | true =>
    rw [if_pos rfl, Tally.get_modify]
    by_cases hm : x.key.operation = m <;> simp [isOf, hm]

end Call

end FunctionCache
