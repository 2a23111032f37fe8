import FunctionCache.Program
import FunctionCache.Proofs.Cache.Ledger
import FunctionCache.Proofs.Programs.Scheduled
import FunctionCache.Proofs.Programs.Steps

/-!
# Accounting for a run

The calls of memoized operations that a run makes can be listed step by step.
The statistics of the cache at the end of the run are those of the list, for
every run: steps may fail or break off, use handles that do not exist, switch
memos and make the engine refuse operations.

* `CachedEngine.callsOf` — the calls of an operation: a difference calls the sum
  if the negation succeeds;
* `Session.log` — the calls of a run;
* `stable_unmoved` — steps other than operations make no calls;
* `Session.accounts` — the result, by the keys of the calls;
* `Session.accounts_by_operands` — the same by their operands, in either order.
-/

namespace FunctionCache

open LayeredFactory

/-! ## The calls of a run -/

/-- The calls of memoized operations that an operation makes. -/
def CachedEngine.callsOf (c : CachedEngine) : Operation Handle → List Call
  | .add a b => [⟨.add a b, _, rfl, c⟩]
  | .subtract a b =>
    match (FunctionFactory.apply (.negate b)).run c with
    | (.ok h, c) => [⟨.add a h, _, rfl, c⟩]
    | (.error _, _) => []
  | .multiply a b => [⟨.multiply a b, _, rfl, c⟩]
  | .star a => [⟨.star a, _, rfl, c⟩]
  | .parameter _ | .divide _ _ | .negate _ | .constraint _ => []

namespace Session

/-- The calls that a step makes. -/
def callsOf (s : Session CachedEngine Handle) : Step → List Call
  | .apply op =>
    match (op.mapM (Step.operand s.made)).run s.factory with
    | (.ok op, c) => CachedEngine.callsOf c op
    | (.error _, _) => []
  | _ => []

/-- The calls that the steps make, in their order. -/
def log (s : Session CachedEngine Handle) : List Step → List Call
  | [] => []
  | first :: rest => s.callsOf first ++ (s.step first).2.log rest

end Session

/-- **An operation** and its calls. -/
theorem Ledger.apply {log : List Call} {c : CachedEngine} (hl : Ledger log c)
    (op : Operation Handle) :
    Ledger (log ++ c.callsOf op) ((FunctionFactory.apply op).run c).2 := by
  -- operations without memo
  have hquiet (op : Operation Handle) (hk : op.memoKey? = none) (hop : ∀ a b, op ≠ .subtract a b) :
      Ledger log ((FunctionFactory.apply op).run c).2 := by
    rw [Cache.apply_eq_delegate hk hop]
    exact hl.quiet (Cache.memos_delegate op c)
      (CachedEngine.calls_delegate_of_memoKey?_eq_none hk c)
  cases op with
  | add a b => exact hl.call (x := ⟨.add a b, _, rfl, c⟩)
  | multiply a b => exact hl.call (x := ⟨.multiply a b, _, rfl, c⟩)
  | star a => exact hl.call (x := ⟨.star a, _, rfl, c⟩)
  | subtract a b =>
    have hnegate := hquiet (.negate b) rfl (by simp)
    rw [Cache.apply_subtract, Stateful.run_bind, CachedEngine.callsOf]
    rcases hrun : (FunctionFactory.apply (.negate b)).run c with ⟨e | h, c'⟩
    · -- the negation fails, and no sum is called
      rw [hrun] at hnegate
      rw [List.append_nil]
      exact hnegate
    · rw [hrun] at hnegate
      exact hnegate.call (x := ⟨.add a h, _, rfl, c'⟩)
  | parameter | divide | negate | constraint =>
    rw [CachedEngine.callsOf, List.append_nil]
    exact hquiet _ rfl (by simp)

/-! ## Steps that make no calls -/

/-- The memos and the calls seen by the engine are those of `c`. -/
def Unmoved (c : CachedEngine) (c' : CachedEngine) : Prop :=
  c'.memos = c.memos ∧ calls c' = calls c

/-- **Steps other than operations** neither ask a memo nor call the engine. -/
theorem stable_unmoved (c : CachedEngine) : Stable (Unmoved c) where
  constant k c' hc := by
    cases k <;> exact hc
  embed _ _ hc := hc
  renew h c' hc := by
    have hrenew : Leaves (Unmoved c) (renew h : Action CachedEngine Handle) :=
      .bind (fun _ hc => hc) fun _ _ hc => hc
    exact hrenew c' hc
  setMemoOn? {depth _ _ _} h hc := by
    -- the outer cache, or none
    cases depth with
    | zero =>
      cases h
      exact hc
    | succ depth => cases h
  setFailing _ _ _ hc := hc

/-! ## Runs -/

namespace Session

/-- **One step** and its calls. -/
theorem ledger_step {log : List Call} {s : Session CachedEngine Handle}
    (hl : Ledger log s.factory) (step : Step) :
    Ledger (log ++ s.callsOf step) (s.step step).2.factory := by
  rw [factory_step]
  by_cases hstep : ∃ op, step = .apply op
  · obtain ⟨op, rfl⟩ := hstep
    have hstate := Step.snd_operands s.made op s.factory
    rw [snd_perform_apply, callsOf]
    rcases hrun : (op.mapM (Step.operand s.made)).run s.factory with ⟨e | op', c⟩
    · -- an operand refers to a step that made nothing
      rw [hrun] at hstate
      cases hstate
      rw [List.append_nil]
      exact hl
    · rw [hrun] at hstate
      cases hstate
      exact hl.apply op'
  · have hcalls : s.callsOf step = [] := by
      cases step with
      | apply op => exact absurd ⟨op, rfl⟩ hstep
      | _ => rfl
    have hleaves : Leaves (Unmoved s.factory) (step.perform s.made) :=
      .perform (stable_unmoved s.factory) fun op hop => absurd ⟨op, hop⟩ hstep
    obtain ⟨hmemos, hseen⟩ := hleaves s.factory ⟨rfl, rfl⟩
    rw [hcalls, List.append_nil]
    exact hl.quiet hmemos hseen

/-- **A whole run** and its calls. -/
theorem ledger_run {log : List Call} {s : Session CachedEngine Handle}
    (hl : Ledger log s.factory) (steps : List Step) :
    Ledger (log ++ s.log steps) (s.run steps).2.factory := by
  induction steps generalizing log s with
  | nil =>
    rw [Session.log, List.append_nil]
    exact hl
  | cons first rest ih =>
    rw [Session.log, ← List.append_assoc]
    exact ih (ledger_step hl first)

/-- A run on a new cache ends with a state that the list of its calls accounts for. -/
theorem ledger (e : Engine) (memoOn : Bool) (steps : List Step) :
    Ledger ((cached e memoOn).log steps) ((cached e memoOn).run steps).2.factory := by
  have hstart : Ledger [] (cached e memoOn).factory := .start rfl rfl
  exact ledger_run hstart steps

/-- **The statistics of a run.** At the end of a run on a cache around the engine, the counts of
each operation are those of its calls. A call reaches the engine once if it is no hit and its
operands exist, and otherwise not at all. A call that succeeds with memos on settles all later ones
with the same operands, in either order. -/
theorem accounts (e : Engine) (memoOn : Bool) (steps : List Step) :
    (∀ m, Accounted ((cached e memoOn).log steps) ((cached e memoOn).run steps).2.factory m) ∧
      (∀ x ∈ (cached e memoOn).log steps, calls x.after =
        if x.reaches then (calls x.before).modify x.key.operation (· + 1) else calls x.before) ∧
      ((cached e memoOn).log steps).Pairwise Call.Settles := by
  have hl := ledger e memoOn steps
  exact ⟨hl.accounted, fun x _ => x.calls_after, hl.settled⟩

/-- **The statistics of a run, by operands.** The entries of an operation are the different
unordered pairs of operands on which it has been called with success and with memos on. Such a call
settles all later ones of its operation on these operands, in either order. -/
theorem accounts_by_operands (e : Engine) (memoOn : Bool) (steps : List Step) :
    (∀ m, (((cached e memoOn).run steps).2.factory.statistics.counts m).entries =
        (Call.pairs m ((cached e memoOn).log steps)).card) ∧
      ((cached e memoOn).log steps).Pairwise Call.SettlesPair := by
  have hl := ledger e memoOn steps
  refine ⟨fun m => ?_, hl.settled.imp Call.Settles.settlesPair⟩
  rw [(hl.accounted m).keys, Ledger.card_pairs]

end Session

end FunctionCache
