import FunctionCache.Cache
import FunctionCache.Proofs.Computation
import FunctionCache.Proofs.Tables

/-!
# What an operation of a cache does

Every operation of a cache except the difference takes one of two ways: it is
delegated to the factory inside, or looked up in a memo and delegated if nothing
is found. Both ways are stated here once, as equations on results and states.

The three memos are seen as one: `MemoKey` is a key of any of them.

* `Memos.find?`, `Memos.ask`, `Memos.record` — the entry under a key, the memos
  after the look-up, and after an entry has been added;
* `Cache.run_delegate` — the delegated operation;
* `Cache.run_apply_of_memoKey?`, `Cache.apply_eq_delegate` — the two ways;
* `Cache.apply_subtract` — a difference is a sum with a negated operand;
* `Cache.memoOn_apply`, `Cache.find?_apply` — no operation throws a switch or
  changes an entry.
-/

namespace FunctionCache

/-- The key under which the result of a memoized operation is remembered. -/
inductive MemoKey
  | sum (operands : PairKey)
  | product (operands : PairKey)
  | closure (operand : Handle)
deriving DecidableEq

namespace MemoKey

/-- The operation whose results are remembered under the key. -/
def operation : MemoKey → Memoized
  | sum _ => .add
  | product _ => .multiply
  | closure _ => .star

end MemoKey

/-- The key of a memoized operation. -/
def Operation.memoKey? : Operation Handle → Option MemoKey
  | add a b => some (.sum (.ofPair a b))
  | multiply a b => some (.product (.ofPair a b))
  | star a => some (.closure a)
  | _ => none

/-- A key belongs to the operation of its memo. -/
theorem Operation.memoized?_of_memoKey? {op : Operation Handle} {k : MemoKey}
    (h : op.memoKey? = some k) : op.memoized? = some k.operation := by
  cases op <;> cases h <;> rfl

/-! ## The three memos as one -/

namespace Memos

/-- The result remembered under a key. -/
def find? (memos : Memos) : MemoKey → Option Handle
  | .sum k => memos.add.entries[k]?
  | .product k => memos.multiply.entries[k]?
  | .closure h => memos.star.entries[h]?

/-- The memos after a key has been looked up. -/
def ask (memos : Memos) : MemoKey → Memos
  | .sum k => { memos with add := (memos.add.get k).2 }
  | .product k => { memos with multiply := (memos.multiply.get k).2 }
  | .closure h => { memos with star := (memos.star.get h).2 }

/-- The memos with a result under a key. -/
def record (memos : Memos) (result : Handle) : MemoKey → Memos
  | .sum k => { memos with add := memos.add.insert k result }
  | .product k => { memos with multiply := memos.multiply.insert k result }
  | .closure h => { memos with star := memos.star.insert h result }

@[simp] theorem find?_empty (k : MemoKey) : empty.find? k = none := by
  cases k <;> exact Std.HashMap.getElem?_empty

@[simp] theorem find?_ask (memos : Memos) (k k' : MemoKey) :
    (memos.ask k).find? k' = memos.find? k' := by
  cases k <;> cases k' <;> simp [ask, find?]

/-- A recorded result is found under its key and under no other. -/
theorem find?_record (memos : Memos) (h : Handle) (k k' : MemoKey) :
    (memos.record h k).find? k' = if k = k' then some h else memos.find? k' := by
  cases k <;> cases k' <;> simp [record, find?, Std.HashMap.getElem?_insert]

end Memos

/-! ## The ways of an operation -/

namespace Cache

section

variable {S F : Type} [BEq F] [Hashable F]

/-- Resolving a handle is a look at the table and changes nothing. -/
theorem run_resolve (h : Handle) (c : Cache S F) :
    (resolve h).run c = ((c.table.resolve h).mapError .fault, c) := rfl

/-- All operands are resolved before anything is done with them. -/
theorem run_mapM_resolve (op : Operation Handle) (c : Cache S F) :
    (op.mapM resolve).run c = ((op.mapM c.table.resolve).mapError .fault, c) := by
  rw [← Operation.mapM_mapError]
  exact Operation.run_mapM (fun h => run_resolve h c) op

/-- A computation of the factory inside changes the factory inside only. -/
theorem run_onContext {α : Type} (act : Action S α) (c : Cache S F) :
    (ExceptT.mk (onContext act.run) : Action (Cache S F) α).run c =
      ((act.run c.context).1, { c with context := (act.run c.context).2 }) := rfl

/-- An outcome of a computation, once a result has been recorded under the key. -/
def recorded (key : MemoKey) :
    Except Failure Handle × Cache S F → Except Failure Handle × Cache S F
  | (.ok h, c) => (.ok h, { c with memos := c.memos.record h key })
  | (.error e, c) => (.error e, c)

/-- A memoized computation by way of one memo, seen as one by way of all three. -/
private theorem run_memoized {κ : Type} [BEq κ] [Hashable κ] {slot : MemoSlot κ} {k : κ}
    {key : MemoKey} (hfind : ∀ memos, (slot.get memos).entries[k]? = memos.find? key)
    (hask : ∀ memos, slot.set ((slot.get memos).get k).2 memos = memos.ask key)
    (hrecord : ∀ memos h, slot.set ((slot.get memos).insert k h) memos = memos.record h key)
    (compute : Action (Cache S F) Handle) (c : Cache S F) :
    (memoized slot k compute).run c =
      if c.memoOn then
        match c.memos.find? key with
        | some h => (.ok h, { c with memos := c.memos.ask key })
        | none => recorded key (compute.run { c with memos := c.memos.ask key })
      else compute.run c := by
  rw [memoized, Stateful.run_bind]
  -- reading the setting changes nothing
  show (if c.memoOn then _ else _ : Action (Cache S F) Handle).run c = _
  split
  · have hlookUp : lookUp slot k c =
        (c.memos.find? key, { c with memos := c.memos.ask key }) := by
      rw [← hfind, ← hask, ← Memo.get_fst]
      rfl
    rw [Stateful.run_bind, Stateful.run_ofState, hlookUp]
    cases c.memos.find? key with
    | some h => rfl
    | none =>
      -- a failure leaves before anything is remembered
      simp only [Stateful.run_bind]
      rcases compute.run { c with memos := c.memos.ask key } with ⟨_ | h, c'⟩
      · rfl
      · simp only [recorded, ← hrecord]
        rfl
  · rfl

end

variable {S F : Type} [BEq F] [LawfulBEq F] [Hashable F]

/-- The outcome of the factory inside, once a result has been stored in the table. -/
def stored (c : Cache S F) : Except Failure F × S → Except Failure Handle × Cache S F
  | (.ok f, context) =>
    (.ok (c.table.intern f).1, { c with context, table := (c.table.intern f).2 })
  | (.error e, context) => (.error e, { c with context })

variable [FunctionFactory S F]

/-- **A delegated operation** fails at the first handle without a function, and otherwise stores
what the factory inside returns. -/
theorem run_delegate (op : Operation Handle) (c : Cache S F) :
    (delegate op).run c = match op.mapM c.table.resolve with
      | .ok op => c.stored ((FunctionFactory.apply op).run c.context)
      | .error e => (.error (.fault e), c) := by
  rw [delegate, Stateful.run_bind, run_mapM_resolve]
  cases op.mapM c.table.resolve with
  | error e => rfl
  | ok op =>
    -- the factory inside computes, and only a result is stored
    simp only [Failing.mapError_ok, Stateful.run_bind, run_onContext]
    rcases (FunctionFactory.apply op).run c.context with ⟨_ | f, s⟩ <;> rfl

/-- **A memoized operation** is answered by its memo if that is on and has an entry. Otherwise it is
delegated, and with the memo on its result is recorded. -/
theorem run_apply_of_memoKey? {op : Operation Handle} {k : MemoKey} (hk : op.memoKey? = some k)
    (c : Cache S F) :
    (FunctionFactory.apply op).run c =
      if c.memoOn then
        match c.memos.find? k with
        | some h => (.ok h, { c with memos := c.memos.ask k })
        | none => recorded k ((delegate op).run { c with memos := c.memos.ask k })
      else (delegate op).run c := by
  cases op with
  | add a b | multiply a b | star a =>
    cases hk
    exact run_memoized (fun _ => rfl) (fun _ => rfl) (fun _ _ => rfl) _ c
  | parameter | subtract | divide | negate | constraint => cases hk

/-- Operations without a memo are delegated. -/
theorem apply_eq_delegate {op : Operation Handle} (hk : op.memoKey? = none)
    (hop : ∀ a b, op ≠ .subtract a b) :
    FunctionFactory.apply op = (delegate op : Action (Cache S F) Handle) := by
  cases op with
  | subtract a b => exact absurd rfl (hop a b)
  | add | multiply | star => cases hk
  | parameter | divide | negate | constraint => rfl

/-- **A difference** is the sum with the negated second operand. -/
theorem apply_subtract (a b : Handle) :
    (FunctionFactory.apply (.subtract a b) : Action (Cache S F) Handle) =
      FunctionFactory.apply (.negate b) >>= fun h => FunctionFactory.apply (.add a h) := rfl

/-- What is true of every other operation, and of computations one after the other, is true of the
difference. -/
theorem apply_induction {Q : Action (Cache S F) Handle → Prop}
    (hplain : ∀ op : Operation Handle, (∀ a b, op ≠ .subtract a b) → Q (FunctionFactory.apply op))
    (hbind : ∀ {act : Action (Cache S F) Handle} {next : Handle → Action (Cache S F) Handle},
      Q act → (∀ h, Q (next h)) → Q (act >>= next))
    (op : Operation Handle) : Q (FunctionFactory.apply op) := by
  by_cases hop : ∃ a b, op = .subtract a b
  · -- a negation, and a sum with its result
    obtain ⟨a, b, rfl⟩ := hop
    rw [apply_subtract]
    exact hbind (hplain (.negate b) (by simp)) fun h => hplain (.add a h) (by simp)
  · exact hplain op fun a b hab => hop ⟨a, b, hab⟩

/-- What every other operation keeps, the difference keeps. -/
theorem apply_invariant {P : Cache S F → Prop}
    (h : ∀ (c : Cache S F) (op : Operation Handle), (∀ a b, op ≠ .subtract a b) → P c →
      P ((FunctionFactory.apply op).run c).2)
    {c : Cache S F} (op : Operation Handle) (hc : P c) :
    P ((FunctionFactory.apply op).run c).2 := by
  -- stated for all states, so that the sum can go on where the negation ended
  refine apply_induction (Q := fun act => ∀ c, P c → P (act.run c).2)
    (fun op hop c hc => h c op hop hc) (fun {act next} hact hnext c hc => ?_) op c hc
  have hfirst := hact c hc
  rw [Stateful.run_bind]
  rcases hrun : act.run c with ⟨e | f, c'⟩
  · rw [hrun] at hfirst
    exact hfirst
  · rw [hrun] at hfirst
    exact hnext f c' hfirst

/-! ## What operations leave alone -/

/-- The layers inside have no access to the switch of the cache. -/
theorem memoOn_delegate (op : Operation Handle) (c : Cache S F) :
    ((delegate op).run c).2.memoOn = c.memoOn := by
  rw [run_delegate]
  cases op.mapM c.table.resolve with
  | error e => rfl
  | ok op =>
    show (c.stored ((FunctionFactory.apply op).run c.context)).2.memoOn = c.memoOn
    rcases (FunctionFactory.apply op).run c.context with ⟨_ | f, s⟩ <;> rfl

/-- With or without a look-up, the switch is left alone. -/
private theorem memoOn_apply_of_ne_subtract {c : Cache S F} {op : Operation Handle}
    (hop : ∀ a b, op ≠ .subtract a b) : ((FunctionFactory.apply op).run c).2.memoOn = c.memoOn := by
  cases hk : op.memoKey? with
  | none => rw [apply_eq_delegate hk hop, memoOn_delegate]
  | some k =>
    rw [run_apply_of_memoKey? hk]
    split
    · cases c.memos.find? k with
      | some h => rfl
      | none =>
        have hdelegate := memoOn_delegate op { c with memos := c.memos.ask k }
        rcases hrun : (delegate op).run { c with memos := c.memos.ask k } with ⟨_ | h, c'⟩ <;>
          rw [hrun] at hdelegate <;> exact hdelegate
    · exact memoOn_delegate op c

/-- **No operation switches memos** on or off. -/
theorem memoOn_apply (op : Operation Handle) (c : Cache S F) :
    ((FunctionFactory.apply op).run c).2.memoOn = c.memoOn :=
  apply_invariant (P := fun c' => c'.memoOn = c.memoOn)
    (fun _ _ hop h => (memoOn_apply_of_ne_subtract hop).trans h) op rfl

/-- A delegated operation neither looks anything up nor remembers it. -/
theorem memos_delegate (op : Operation Handle) (c : Cache S F) :
    ((delegate op).run c).2.memos = c.memos := by
  rw [run_delegate]
  cases op.mapM c.table.resolve with
  | error e => rfl
  | ok op =>
    show (c.stored ((FunctionFactory.apply op).run c.context)).2.memos = c.memos
    rcases (FunctionFactory.apply op).run c.context with ⟨_ | f, s⟩ <;> rfl

/-- What a miss records is under a key that had no entry. -/
private theorem find?_apply_of_ne_subtract {c : Cache S F} {op : Operation Handle} {k : MemoKey}
    {h : Handle} (hop : ∀ a b, op ≠ .subtract a b) (hk : c.memos.find? k = some h) :
    ((FunctionFactory.apply op).run c).2.memos.find? k = some h := by
  cases hkey : op.memoKey? with
  | none => rw [apply_eq_delegate hkey hop, memos_delegate, hk]
  | some key =>
    rw [run_apply_of_memoKey? hkey]
    split
    · cases hfound : c.memos.find? key with
      | some h' =>
        show (c.memos.ask key).find? k = some h
        rw [Memos.find?_ask, hk]
      | none =>
        have hmemos := memos_delegate op { c with memos := c.memos.ask key }
        rcases hrun : (delegate op).run { c with memos := c.memos.ask key } with ⟨e | h', c'⟩
        · rw [hrun] at hmemos
          show c'.memos.find? k = some h
          rw [hmemos, Memos.find?_ask, hk]
        · rw [hrun] at hmemos
          show (c'.memos.record h' key).find? k = some h
          -- the new entry is under another key, as there was none under this one
          have hne : key ≠ k := by
            rintro rfl
            rw [hk] at hfound
            cases hfound
          rw [Memos.find?_record, if_neg hne, hmemos, Memos.find?_ask, hk]
    · rw [memos_delegate, hk]

/-- **No operation changes an entry.** -/
theorem find?_apply {c : Cache S F} (op : Operation Handle) {k : MemoKey} {h : Handle}
    (hk : c.memos.find? k = some h) :
    ((FunctionFactory.apply op).run c).2.memos.find? k = some h := by
  exact apply_invariant (P := fun c => c.memos.find? k = some h)
    (fun _ _ hop hk => find?_apply_of_ne_subtract hop hk) op hk

end Cache

end FunctionCache
