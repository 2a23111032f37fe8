import Mathlib.Data.Finset.Card
import Mathlib.Data.Finset.Dedup
import FunctionCache.Proofs.Cache.Calls
import FunctionCache.Proofs.Cache.PairLog

/-!
# The counts of a cache and the calls behind them

A log lists the calls of memoized operations in the order in which they were
made. The counts of a cache, the entries of its memos and the calls that its
engine has seen can all be read off the log.

* `MemoKey.eq_iff` — a key stands for an operation and its operands in either
  order;
* `Accounted` — the counts for one operation, in terms of the log;
* `Call.Settles`, `Call.SettlesPair` — a successful call settles all later ones
  with its key, that is, on its operands;
* `Ledger` — the invariant: the counts are right, and the entries are the
  results of the successful calls;
* `Ledger.call`, `Ledger.quiet` — one more call, and changes that are no calls.
-/

namespace FunctionCache

open LayeredFactory

/-! ## Operands without their order -/

/-- The operands of a memoized operation without their order. A closure has its operand twice. -/
def Operation.pair? : Operation Handle → Option (Sym2 Handle)
  | add a b | multiply a b => some s(a, b)
  | star a => some s(a, a)
  | _ => none

/-- The operands that a key stands for. -/
def MemoKey.pair : MemoKey → Sym2 Handle
  | sum k | product k => s(k.first, k.second)
  | closure a => s(a, a)

/-- Sorting two operands into a key loses nothing but their order. -/
theorem PairKey.mk_ofPair (a b : Handle) : s((ofPair a b).first, (ofPair a b).second) = s(a, b) :=
  ofPair_eq_ofPair_iff.mp (ofPair_first_second _)

/-- The pair of operands can be read off the key. -/
theorem Operation.pair?_of_memoKey? {op : Operation Handle} {k : MemoKey}
    (h : op.memoKey? = some k) : op.pair? = some k.pair := by
  cases op with
  | parameter | subtract | divide | negate | constraint => cases h
  | add a b | multiply a b =>
    cases h
    exact congrArg some (PairKey.mk_ofPair a b).symm
  | star a =>
    cases h
    rfl

/-- A key says which operation has been called on which operands, and nothing else. -/
theorem MemoKey.eq_iff {k l : MemoKey} : k = l ↔ k.operation = l.operation ∧ k.pair = l.pair := by
  have hpair {i j : PairKey} (h : s(i.first, i.second) = s(j.first, j.second)) : i = j := by
    rw [← i.ofPair_first_second, ← j.ofPair_first_second, PairKey.ofPair_eq_ofPair_iff, h]
  constructor
  · rintro rfl
    exact ⟨rfl, rfl⟩
  · rintro ⟨hop, hkl⟩
    -- both keys are of the same memo, since they are of the same operation
    cases k <;> cases l <;> cases hop
    · exact congrArg MemoKey.sum (hpair hkl)
    · exact congrArg MemoKey.product (hpair hkl)
    · exact congrArg MemoKey.closure (Sym2.diag_injective hkl)

/-! ## What a log says -/

namespace Call

/-- Every call has a pair of operands, that of its key. -/
theorem pair?_operation (x : Call) : x.operation.pair? = some x.key.pair :=
  Operation.pair?_of_memoKey? x.memoKey?_operation

/-- Two calls have one key exactly if they are calls of one operation on the same operands, in
either order. -/
theorem key_eq_iff {x y : Call} : x.key = y.key ↔
    x.operation.memoized? = y.operation.memoized? ∧ x.operation.pair? = y.operation.pair? := by
  rw [Operation.memoized?_of_memoKey? x.memoKey?_operation,
    Operation.memoized?_of_memoKey? y.memoKey?_operation, x.pair?_operation, y.pair?_operation,
    Option.some_inj, Option.some_inj, MemoKey.eq_iff]

/-- The keys under which an operation has been called with success and with memos on. -/
def keys (m : Memoized) (log : List Call) : Finset MemoKey :=
  ((log.filter fun x => x.isOf m && x.isOn && x.succeeds).map key).toFinset

/-- A call that succeeds with memos on settles a later one with its key and memos on: it returns the
same handle, and the engine does not see it. -/
def Settles (x y : Call) : Prop :=
  ∀ h, x.key = y.key → x.isOn → x.result = .ok h → y.isOn →
    y.result = .ok h ∧ calls y.after = calls y.before

/-- The operands, without their order, on which an operation has been called with success and with
memos on. -/
def pairs (m : Memoized) (log : List Call) : Finset (Sym2 Handle) :=
  ((log.filter fun x => x.isOf m && x.isOn && x.succeeds).filterMap fun x =>
    x.operation.pair?).toFinset

/-- A call that succeeds with memos on settles a later one of its operation on the same operands, in
either order. -/
def SettlesPair (x y : Call) : Prop :=
  ∀ h, x.operation.memoized? = y.operation.memoized? → x.operation.pair? = y.operation.pair? →
    x.isOn → x.result = .ok h → y.isOn → y.result = .ok h ∧ calls y.after = calls y.before

/-- Settling by keys is settling by operands in either order. -/
theorem Settles.settlesPair {x y : Call} (h : x.Settles y) : x.SettlesPair y :=
  fun r hop hpair => h r (key_eq_iff.mpr ⟨hop, hpair⟩)

end Call

/-- The counts for one operation are those of the calls in the log. -/
structure Accounted (log : List Call) (c : CachedEngine) (m : Memoized) : Prop where
  /-- Hits are the calls that the memo has answered. -/
  hits : (c.statistics.counts m).hits = log.countP fun x => x.isOf m && x.isHit
  /-- Hits and misses are the calls with memos on. -/
  asked : (c.statistics.counts m).hits + (c.statistics.counts m).misses =
    log.countP fun x => x.isOf m && x.isOn
  /-- Entries are the misses that succeeded. -/
  entries : (c.statistics.counts m).entries =
    log.countP fun x => x.isOf m && x.isOn && !x.isHit && x.succeeds
  /-- Entries are the different keys of successful calls with memos on. -/
  keys : (c.statistics.counts m).entries = (Call.keys m log).card
  /-- The engine has seen the calls that reach it. -/
  reached : (calls c).get m = log.countP fun x => x.isOf m && x.reaches

/-- The log accounts for the state of the cache. -/
structure Ledger (log : List Call) (c : CachedEngine) : Prop where
  accounted (m : Memoized) : Accounted log c m
  recorded {x : Call} {h : Handle} : x ∈ log → x.isOn → x.result = .ok h →
    c.memos.find? x.key = some h
  complete {k : MemoKey} {h : Handle} : c.memos.find? k = some h →
    ∃ x ∈ log, x.key = k ∧ x.isOn ∧ x.succeeds
  settled : log.Pairwise Call.Settles

namespace Ledger

variable {log : List Call} {c : CachedEngine}

/-- A key is counted exactly if some call with it has succeeded with memos on. -/
theorem mem_keys {m : Memoized} {k : MemoKey} :
    k ∈ Call.keys m log ↔ ∃ x ∈ log, x.key = k ∧ x.key.operation = m ∧ x.isOn ∧ x.succeeds := by
  simp only [Call.keys, List.mem_toFinset, List.mem_map, List.mem_filter, Call.isOf,
    Bool.and_eq_true, beq_iff_eq]
  constructor
  · rintro ⟨x, ⟨hx, ⟨hm, hon⟩, hok⟩, hk⟩
    exact ⟨x, hx, hk, hm, hon, hok⟩
  · rintro ⟨x, hx, hk, hm, hon, hok⟩
    exact ⟨x, ⟨hx, ⟨hm, hon⟩, hok⟩, hk⟩

/-- One more call adds its key, or nothing. -/
theorem keys_append (m : Memoized) (log : List Call) (x : Call) :
    Call.keys m (log ++ [x]) =
      if x.isOf m && x.isOn && x.succeeds then insert x.key (Call.keys m log)
      else Call.keys m log := by
  unfold Call.keys
  rw [List.filter_append, List.map_append, List.toFinset_append, List.filter_singleton]
  cases x.isOf m && x.isOn && x.succeeds with
  | true => simp [Finset.union_comm]
  | false => simp

/-- There are as many pairs of operands as keys: no two keys of one operation share their pair. -/
theorem card_pairs (m : Memoized) (log : List Call) :
    (Call.pairs m log).card = (Call.keys m log).card := by
  have himage : Call.pairs m log = (Call.keys m log).image MemoKey.pair := by
    ext p
    simp [Call.pairs, Call.keys, Call.pair?_operation]
  rw [himage, Finset.card_image_of_injOn]
  intro k hk l hl hkl
  obtain ⟨x, -, rfl, hx, -⟩ := mem_keys.mp hk
  obtain ⟨y, -, rfl, hy, -⟩ := mem_keys.mp hl
  exact MemoKey.eq_iff.mpr ⟨hx.trans hy.symm, hkl⟩

/-- A new cache has counted nothing, and no call has been made. -/
theorem start (hmemos : c.memos = .empty) (hcalls : calls c = .replicate 0) : Ledger [] c where
  accounted m := by
    have hcounts : c.statistics.counts m = ⟨0, 0, 0⟩ := by
      rw [Cache.counts_statistics, hmemos]
      cases m <;> rfl
    refine ⟨?_, ?_, ?_, ?_, ?_⟩
    · rw [hcounts]; rfl
    · rw [hcounts]; rfl
    · rw [hcounts]; rfl
    · rw [hcounts]; rfl
    · rw [hcalls]
      cases m <;> rfl
  recorded hx := absurd hx List.not_mem_nil
  complete hk := by
    rw [hmemos, Memos.find?_empty] at hk
    cases hk
  settled := .nil

/-- What changes neither memos nor the calls that the engine has seen. -/
theorem quiet (hl : Ledger log c) {c' : CachedEngine} (hmemos : c'.memos = c.memos)
    (hcalls : calls c' = calls c) : Ledger log c' where
  accounted m := by
    have hcounts : c'.statistics.counts m = c.statistics.counts m := by
      rw [Cache.counts_statistics, Cache.counts_statistics, hmemos]
    obtain ⟨hhits, hasked, hentries, hkeys, hreached⟩ := hl.accounted m
    rw [← hcounts] at hhits hasked hentries hkeys
    rw [← hcalls] at hreached
    exact ⟨hhits, hasked, hentries, hkeys, hreached⟩
  recorded hx hon hr := by
    rw [hmemos]
    exact hl.recorded hx hon hr
  complete hk := by
    rw [hmemos] at hk
    exact hl.complete hk
  settled := hl.settled

section

variable {x : Call} (hl : Ledger log x.before)
include hl

/-- A key has been called with success if and only if there is an entry under it. -/
theorem key_mem_keys_iff (m : Memoized) (hm : x.isOf m) :
    x.key ∈ Call.keys m log ↔ (x.before.memos.find? x.key).isSome := by
  have hkind : x.key.operation = m := by simpa [Call.isOf] using hm
  rw [mem_keys]
  constructor
  · -- a successful call has been recorded, and entries stay
    rintro ⟨y, hy, hkey, -, hon, hok⟩
    obtain ⟨h, hh⟩ : ∃ h, y.result = .ok h := by
      unfold Call.succeeds at hok
      cases hr : y.result with
      | error e => rw [hr] at hok; cases hok
      | ok h => exact ⟨h, rfl⟩
    rw [← hkey, hl.recorded hy hon hh]
    rfl
  · intro hsome
    obtain ⟨h, hh⟩ := Option.isSome_iff_exists.mp hsome
    obtain ⟨y, hy, hkey, hon, hok⟩ := hl.complete hh
    exact ⟨y, hy, hkey, hkey ▸ hkind, hon, hok⟩

/-- Each count grows by what the call counts as. -/
private theorem accounted_call (m : Memoized) : Accounted (log ++ [x]) x.after m := by
  obtain ⟨hhits, hasked, hentries, hkeys, hreached⟩ := hl.accounted m
  refine ⟨?_, ?_, ?_, ?_, ?_⟩
  · -- hits
    rw [Call.counts_after, List.countP_append, ← hhits, List.countP_singleton]
  · -- hits and misses
    rw [Call.counts_after, List.countP_append, ← hasked, List.countP_singleton]
    dsimp only
    -- a call with memos on is either a hit or a miss
    cases hof : x.isOf m <;> cases hon : x.isOn <;> cases hhit : x.isHit <;>
      simp only [Call.isHit, hon, Bool.false_and, Bool.false_eq_true] at hhit <;> simp <;> omega
  · -- entries
    rw [Call.counts_after, List.countP_append, ← hentries, List.countP_singleton]
  · -- entries, as keys
    rw [Call.counts_after, keys_append]
    dsimp only
    rw [hkeys]
    cases hof : x.isOf m && x.isOn && x.succeeds with
    | false =>
      have hentry : (x.isOf m && x.isOn && !x.isHit && x.succeeds) = false := by
        revert hof
        cases x.isOf m <;> cases x.isOn <;> cases x.succeeds <;> simp
      rw [hentry]
      rfl
    | true =>
      simp only [Bool.and_eq_true] at hof
      obtain ⟨⟨hof, hon⟩, hsucceeds⟩ := hof
      have hmem := hl.key_mem_keys_iff m hof
      rw [if_pos rfl, hof, hon, hsucceeds]
      -- a hit succeeds under a key that is known, a miss under a new one
      cases hfound : (x.before.memos.find? x.key).isSome with
      | true =>
        rw [Finset.insert_eq_of_mem (hmem.mpr hfound), Call.isHit, hon, hfound]
        rfl
      | false =>
        have hnew : x.key ∉ Call.keys m log := fun h => by
          rw [hmem.mp h] at hfound
          cases hfound
        rw [Finset.card_insert_of_notMem hnew, Call.isHit, hon, hfound]
        rfl
  · -- calls of the engine
    rw [Call.get_calls_after, List.countP_append, ← hreached, List.countP_singleton]

/-- The result of a successful call is under its key, from now on. -/
private theorem recorded_call {y : Call} {h : Handle} (hy : y ∈ log ++ [x]) (hon : y.isOn)
    (hr : y.result = .ok h) : x.after.memos.find? y.key = some h := by
  rcases List.mem_append.mp hy with hy | hy
  · -- an entry stays
    exact Cache.find?_apply x.operation (hl.recorded hy hon hr)
  · -- the new call: memos off, hit, failure, success
    rw [List.mem_singleton.mp hy] at hon hr ⊢
    rcases x.cases with ⟨hoff, -⟩ | ⟨h', -, hfound, hresult, hmemos⟩ | ⟨e, -, -, hresult, -⟩ |
      ⟨h', -, -, hresult, hmemos⟩
    · rw [hon] at hoff
      cases hoff
    · rw [hr] at hresult
      cases hresult
      rw [hmemos, Memos.find?_ask, hfound]
    · rw [hr] at hresult
      cases hresult
    · rw [hr] at hresult
      cases hresult
      rw [hmemos, Memos.find?_record, if_pos rfl]

/-- An entry comes from the new call or from an earlier one. -/
private theorem complete_call {k : MemoKey} {h : Handle} (hk : x.after.memos.find? k = some h) :
    ∃ y ∈ log ++ [x], y.key = k ∧ y.isOn ∧ y.succeeds := by
  have hold (hk : x.before.memos.find? k = some h) :
      ∃ y ∈ log ++ [x], y.key = k ∧ y.isOn ∧ y.succeeds := by
    obtain ⟨y, hy, hrest⟩ := hl.complete hk
    exact ⟨y, List.mem_append_left _ hy, hrest⟩
  rcases x.cases with ⟨-, hmemos⟩ | ⟨h', -, -, -, hmemos⟩ | ⟨e, -, -, -, hmemos⟩ |
    ⟨h', hon, -, hresult, hmemos⟩
  · exact hold (hmemos ▸ hk)
  · rw [hmemos, Memos.find?_ask] at hk
    exact hold hk
  · rw [hmemos, Memos.find?_ask] at hk
    exact hold hk
  · rw [hmemos, Memos.find?_record] at hk
    split_ifs at hk with hkey
    · -- the new entry
      refine ⟨x, List.mem_append_right _ (List.mem_singleton_self x), hkey, hon, ?_⟩
      rw [Call.succeeds, hresult]
      rfl
    · rw [Memos.find?_ask] at hk
      exact hold hk

/-- After a success with its key, a call is a hit. -/
private theorem settles_call {y : Call} (hy : y ∈ log) : y.Settles x := by
  intro h hkey hyon hr hon
  have hfound := hl.recorded hy hyon hr
  rw [hkey] at hfound
  have hhit : x.isHit = true := by
    rw [Call.isHit, hon, hfound]
    rfl
  refine ⟨?_, ?_⟩
  · -- of the four ways only the hit is left
    rcases x.cases with ⟨hoff, -⟩ | ⟨h', -, hfound', hresult, -⟩ | ⟨e, -, hnone, -⟩ |
      ⟨h', -, hnone, -⟩
    · rw [hon] at hoff
      cases hoff
    · rw [hfound] at hfound'
      cases hfound'
      exact hresult
    · rw [hfound] at hnone
      cases hnone
    · rw [hfound] at hnone
      cases hnone
  · rw [Call.calls_after, Call.reaches, hhit]
    rfl

/-- **One more call** is accounted for. -/
theorem call : Ledger (log ++ [x]) x.after where
  accounted m := hl.accounted_call m
  recorded hy hon hr := hl.recorded_call hy hon hr
  complete hk := hl.complete_call hk
  settled := by
    refine List.pairwise_append.mpr ⟨hl.settled, List.pairwise_singleton _ _, ?_⟩
    intro y hy z hz
    rw [List.mem_singleton.mp hz]
    exact hl.settles_call hy

end

end Ledger

end FunctionCache
