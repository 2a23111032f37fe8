import FunctionCache.Proofs.Cache.Calls
import FunctionCache.Proofs.Layers.Mirrored
import FunctionCache.Proofs.Programs.Scheduled

/-!
# Two caches in lockstep

A program that runs on a cache around a cache stores every function in both or
in neither, so after every step both hold equally many, and each handle of the
outer cache leads to the handle with the same number in the inner one. This is
so whatever memos are switched on and off, whatever fails and whatever handles
are used.

While the memos of both caches are on, those of the inner one are of no use:
whatever it is asked for is new to it, since the outer one would have answered
otherwise.

* `Cache.stable_mirrored` — the other changes keep two caches in step, too;
* `TwiceCachedEngine.Doubled` — caches with the same entries in their memos;
* `TwiceCachedEngine.Doubled.call` — one call of a memoized operation;
* `TwiceCachedEngine.InLockstep`, `InnerNeverAnswers` — what can be seen from
  outside;
* `Session.caches_in_lockstep` — the result.
-/

namespace FunctionCache

open LayeredFactory Closable

namespace Cache

section

variable {S F : Type} [LayeredFactory S F] [BEq F] [LawfulBEq F] [Hashable F]

/-- Switches do not touch the table. -/
theorem table_setMemoOn? {depth : Nat} {on : Bool} {c c' : Cache S F}
    (h : LayeredFactory.setMemoOn? depth on c = some c') : c'.table = c.table := by
  cases depth with
  | zero =>
    cases h
    rfl
  | succ depth =>
    obtain ⟨s, -, h⟩ := Option.bind_eq_some_iff.mp h
    cases h
    rfl

variable [Closable S] [Closing S F] [Erasable S] [Storage S F]

/-- Every change but an operation keeps a cache and the one around it in step. -/
theorem stable_mirrored : Stable (Mirrored : Cache (Cache S F) Handle → Prop) where
  constant k {d} hd := by
    refine ⟨(Closing.hands_constant k d hd.closed).1, ?_⟩
    cases k with
    | one | zero => exact hd.mirrors
    | nan | posInf | negInf | rational q =>
      exact (mirrors_stored (x := (.ok _, _)) hd.mirrors ⟨_, rfl⟩).2
  embed r {d} hd := by
    refine ⟨(Closing.hands_embed r d hd.closed).1, ?_⟩
    exact (mirrors_stored (x := (.ok _, _)) hd.mirrors ⟨_, rfl⟩).2
  renew h {d} hd := by
    refine ⟨(Closing.hands_renew h d hd.closed).1, ?_⟩
    show ((resolve h >>= fun f => Action.ofState (intern f)).run d).2.table.Mirrors
      ((resolve h >>= fun f => Action.ofState (intern f)).run d).2.context.table
    rw [Stateful.run_bind, run_resolve]
    cases hf : d.table.resolve h with
    | error e => exact hd.mirrors
    | ok f =>
      -- it is in the table
      show (d.table.intern f).2.Mirrors d.context.table
      rw [Table.intern_of_resolve? (Table.resolve_eq_ok.mp hf)]
      exact hd.mirrors
  setFailing op on {d} hd :=
    ⟨Closing.closed_setFailing (S := Cache (Cache S F) Handle) op on hd.closed, hd.mirrors⟩
  setMemoOn? {depth on d d'} h hd := by
    refine ⟨Closing.closed_setMemoOn? h hd.closed, ?_⟩
    cases depth with
    | zero =>
      cases h
      exact hd.mirrors
    | succ depth =>
      obtain ⟨c, hc, h⟩ := Option.bind_eq_some_iff.mp h
      cases h
      show d.table.Mirrors c.table
      rw [table_setMemoOn? hc]
      exact hd.mirrors

end

end Cache

/-! ## Calls that pass both caches -/

/-- A miss whose operands exist is one call of the engine. -/
theorem Call.misses_after {x : Call} (hon : x.isOn = true) (hreaches : x.reaches = true)
    {m : Memoized}
    (h : (x.before.statistics.counts m).misses = (calls x.before).get m) :
    (x.after.statistics.counts m).misses = (calls x.after).get m := by
  obtain ⟨hhit, -⟩ := Bool.and_eq_true_iff.mp hreaches
  rw [counts_after, get_calls_after]
  dsimp only
  rw [h, hon, hhit, hreaches, Bool.and_true, Bool.and_true]

namespace TwiceCachedEngine

/-- Memos are on in both caches and have the same entries, but nothing has been found in those of
the inner one, and the engine has been called as often as they failed. -/
structure Doubled (c : TwiceCachedEngine) : Prop where
  mirrored : c.Mirrored
  on : c.memoOn = true
  innerOn : c.context.memoOn = true
  entries (k : MemoKey) : c.context.memos.find? k = c.memos.find? k
  hits (m : Memoized) : (c.context.statistics.counts m).hits = 0
  misses (m : Memoized) : (c.context.statistics.counts m).misses = (calls c).get m

namespace Doubled

variable {c c' : TwiceCachedEngine}

/-- Changes of the memos do not matter if the outer entries stay, and the inner memos do. -/
theorem quiet (hc : Doubled c) (hmirrored : c'.Mirrored) (hon : c'.memoOn = true)
    (hinnerOn : c'.context.memoOn = true) (hentries : ∀ k, c'.memos.find? k = c.memos.find? k)
    (hmemos : c'.context.memos = c.context.memos) (hcalls : calls c' = calls c) : Doubled c' where
  mirrored := hmirrored
  on := hon
  innerOn := hinnerOn
  entries k := by rw [hmemos, hc.entries, hentries]
  hits m := by rw [Cache.counts_statistics, hmemos, ← Cache.counts_statistics, hc.hits]
  misses m := by
    rw [Cache.counts_statistics, hmemos, ← Cache.counts_statistics, hcalls, hc.misses]

/-- An operation without memo. -/
theorem delegate (hc : Doubled c) {op : Operation Handle} (hk : op.memoKey? = none)
    (hop : ∀ a b, op ≠ .subtract a b) : Doubled ((FunctionFactory.apply op).run c).2 := by
  have hmirrored := hc.mirrored.apply op
  rw [Cache.apply_eq_delegate hk hop] at hmirrored ⊢
  rcases hc.mirrored.run_delegate op with ⟨e, hrun⟩ | ⟨-, hrun⟩
  · rw [hrun]
    exact hc
  · have hmemos := Cache.memos_delegate op c.context
    have hinnerOn := (Cache.memoOn_delegate op c.context).trans hc.innerOn
    have hcalls := CachedEngine.calls_delegate_of_memoKey?_eq_none hk c.context
    rw [hrun, Cache.apply_eq_delegate hk hop] at hmirrored ⊢
    rcases hinner : (Cache.delegate op).run c.context with ⟨e | h, s⟩ <;>
      rw [hinner] at hmirrored hmemos hinnerOn hcalls
    · exact hc.quiet hmirrored hc.on hinnerOn (fun _ => rfl) hmemos hcalls
    · exact hc.quiet hmirrored hc.on hinnerOn (fun _ => rfl) hmemos hcalls

/-- **A call** that the outer memos do not answer is not answered by the inner ones either, and both
record its result. -/
theorem call (hc : Doubled c) {op : Operation Handle} {k : MemoKey} (hk : op.memoKey? = some k) :
    Doubled ((FunctionFactory.apply op).run c).2 := by
  have hmirrored := hc.mirrored.apply op
  rw [Cache.run_apply_of_memoKey? hk, if_pos hc.on] at hmirrored ⊢
  -- the outer memo has been asked
  have hask : Doubled { c with memos := c.memos.ask k } :=
    hc.quiet (hc.mirrored.ask k) hc.on hc.innerOn (fun _ => Memos.find?_ask ..) rfl rfl
  cases hfound : c.memos.find? k with
  | some h => exact hask
  | none =>
    rw [hfound] at hmirrored
    dsimp only at hmirrored ⊢
    rcases hask.mirrored.run_delegate op with ⟨e, hrun⟩ | ⟨hoperands, hrun⟩
    · -- an operand is missing, and the inner cache is not asked
      rw [hrun]
      exact hask
    · rw [hrun] at hmirrored ⊢
      -- the inner cache has the operands, and no entry either
      let x : Call := ⟨op, k, hk, c.context⟩
      have hinner : (FunctionFactory.apply op).run c.context = (x.result, x.after) := rfl
      have hinnerOn : x.after.memoOn = true := (Cache.memoOn_apply op c.context).trans hc.innerOn
      have hvain : c.context.memos.find? k = none := (hc.entries k).trans hfound
      have hhit : x.isHit = false := by
        show (c.context.memoOn && (c.context.memos.find? k).isSome) = false
        rw [hvain, Option.isSome_none, Bool.and_false]
      have hreaches : x.reaches = true := by
        have hoperands' : x.hasOperands = true := hc.mirrored.hasOperands hoperands
        rw [Call.reaches, hhit, hoperands']
        rfl
      -- the inner look-up is a miss, and there have been no hits before
      have hhits (m : Memoized) : (x.after.statistics.counts m).hits = 0 := by
        rw [x.counts_after, hhit, Bool.and_false]
        exact hc.hits m
      have hmisses (m : Memoized) := x.misses_after hc.innerOn hreaches (hc.misses m)
      rw [hinner] at hmirrored ⊢
      rcases x.cases with ⟨hoff, -⟩ | ⟨h, -, hfound', -⟩ | ⟨e, -, -, hresult, hmemos⟩ |
        ⟨h, -, -, hresult, hmemos⟩
      · exact absurd (hc.innerOn.symm.trans hoff) (by simp)
      · exact absurd (hvain.symm.trans hfound') (by simp)
      · -- the inner cache fails, and both have only been asked
        rw [hresult] at hmirrored ⊢
        refine ⟨hmirrored, hc.on, hinnerOn, fun k' => ?_, hhits, hmisses⟩
        show x.after.memos.find? k' = (c.memos.ask k).find? k'
        rw [hmemos, Memos.find?_ask, Memos.find?_ask]
        exact hc.entries k'
      · -- the inner cache returns a handle, and the outer one stores it under the same number
        have hinnerClosed : c.context.Closed := hc.mirrored.closed.context
        have hsubtract (a b : Handle) : op ≠ .subtract a b := by
          rintro rfl
          cases hk
        have hstores := hinnerClosed.storesOne_apply hsubtract
        have hnumber := (Cache.mirrors_stored hc.mirrored.mirrors hstores).1
        rw [hinner, hresult] at hnumber
        rw [hresult] at hmirrored ⊢
        refine ⟨hmirrored, hc.on, hinnerOn, fun k' => ?_, hhits, hmisses⟩
        show x.after.memos.find? k' = ((c.memos.ask k).record (c.table.intern h).1 k).find? k'
        rw [hmemos, Except.ok.inj hnumber, Memos.find?_record, Memos.find?_record, Memos.find?_ask,
          Memos.find?_ask, hc.entries k']

/-- Every operation keeps the memos of both caches equal. -/
theorem apply (hc : Doubled c) (op : Operation Handle) :
    Doubled ((FunctionFactory.apply op).run c).2 := by
  refine Cache.apply_invariant (P := Doubled) (fun c op hop hc => ?_) op hc
  cases hk : op.memoKey? with
  | none => exact hc.delegate hk hop
  | some k => exact hc.call hk

/-- **Every change** other than an operation or a switch keeps the memos of both caches equal. -/
theorem persistent : Persistent Doubled where
  constant k {c} hc := by
    have hmirrored := Cache.stable_mirrored.constant k hc.mirrored
    cases k with
    | one | zero => exact hc
    | nan | posInf | negInf | rational q =>
      exact hc.quiet hmirrored hc.on hc.innerOn (fun _ => rfl) rfl rfl
  embed r {c} hc :=
    hc.quiet (Cache.stable_mirrored.embed r hc.mirrored) hc.on hc.innerOn (fun _ => rfl) rfl rfl
  renew h {c} hc := by
    have hmirrored := Cache.stable_mirrored.renew h hc.mirrored
    have hrun : (renew h).run c =
        (Cache.resolve h >>= fun f => Action.ofState (Cache.intern f)).run c := rfl
    rw [hrun, Stateful.run_bind, Cache.run_resolve] at hmirrored ⊢
    cases hf : c.table.resolve h with
    | error e => exact hc
    | ok f =>
      rw [hf] at hmirrored
      exact hc.quiet hmirrored hc.on hc.innerOn (fun _ => rfl) rfl rfl
  setFailing op on {c} hc :=
    hc.quiet (Cache.stable_mirrored.setFailing op on hc.mirrored) hc.on hc.innerOn (fun _ => rfl)
      rfl rfl

/-- Switching memos on that are on changes nothing. -/
theorem setMemoOn? (hc : Doubled c) {depth : Nat} {on : Bool} (hon : depth < 2 → on = true)
    (h : LayeredFactory.setMemoOn? depth on c = some c') : Doubled c' := by
  have hmirrored := Cache.stable_mirrored.setMemoOn? h hc.mirrored
  match depth with
  | 0 =>
    cases h
    exact hc.quiet hmirrored (hon (by decide)) hc.innerOn (fun _ => rfl) rfl rfl
  | 1 =>
    cases h
    exact hc.quiet hmirrored hc.on (hon (by decide)) (fun _ => rfl) rfl rfl
  | depth + 2 => cases h

/-- **Every step** that switches no memos off. -/
theorem leaves_perform {step : Step} (hstep : ∀ depth < 2, step ≠ .setMemo depth false)
    (made : Array (Option Handle)) : Leaves Doubled (step.perform made : StepAction _ _) := by
  refine .perform_of_persistent persistent (fun _ _ op' c hc => hc.apply op') ?_
  rintro depth on rfl c c' h hc
  refine hc.setMemoOn? (fun hdepth => ?_) h
  cases on with
  | true => rfl
  | false => exact absurd rfl (hstep depth hdepth)

end Doubled

/-- New caches have nothing in their memos. -/
theorem doubled_ofContext (e : Engine) :
    Doubled (.ofContext true (.ofContext true (.ofContext e))) where
  mirrored := Cache.mirrored_ofContext true true trivial
  on := rfl
  innerOn := rfl
  entries k := by
    show Memos.empty.find? k = Memos.empty.find? k
    rfl
  hits m := by
    cases m <;> rfl
  misses m := by
    cases m <;> rfl

/-! ## The result -/

/-- Both caches hold equally many functions, under the same numbers. -/
structure InLockstep (c : TwiceCachedEngine) : Prop where
  size : c.size = c.context.size
  /-- Every handle of the outer cache leads to the one with its number in the inner cache. -/
  resolve {k : Nat} : 1 ≤ k → k ≤ c.size → c.table.resolve ⟨k⟩ = .ok ⟨k⟩

/-- The memos of the inner cache have never answered. -/
structure InnerNeverAnswers (c : TwiceCachedEngine) : Prop where
  hits (m : Memoized) : (c.context.statistics.counts m).hits = 0
  /-- Both caches remember the same handles under the same keys. -/
  entries (k : MemoKey) : c.context.memos.find? k = c.memos.find? k
  /-- Every vain look-up in the inner cache is a call of the engine, and there are no others. -/
  misses (m : Memoized) : (c.context.statistics.counts m).misses = (calls c).get m

/-- What mirrored tables show from outside. -/
theorem inLockstep_of_mirrored {c : TwiceCachedEngine} (hc : c.Mirrored) : InLockstep c where
  size := hc.mirrors.size_eq
  resolve {k} hpos hle := by
    have hsize : c.table.size = c.context.table.size := hc.mirrors.size_eq
    refine Table.resolve_eq_ok.mpr (hc.mirrors.resolve?_eq_some_iff.mpr ⟨rfl, k - 1, ?_, ?_⟩)
    · have hle' : k ≤ c.table.size := hle
      omega
    · rw [Handle.ofPosition, Nat.sub_add_cancel hpos]

end TwiceCachedEngine

open TwiceCachedEngine

/-- **Two caches run in lockstep.** After any steps on a cache around a cache around the engine,
which may throw switches of both, make the engine refuse operations, fail, break off or use handles
that do not exist, both caches hold equally many functions, and each handle of the outer cache leads
to the same handle of the inner one. If the memos of both are on at first and no step switches them
off, those of the inner one never answer, have the entries of the outer ones, and are asked in vain
as often as the engine is called. -/
theorem Session.caches_in_lockstep (e : Engine) (outerOn innerOn : Bool) (program : List Step) :
    InLockstep ((twiceCached e outerOn innerOn).run program).2.factory ∧
      (outerOn = true → innerOn = true → (∀ depth < 2, .setMemo depth false ∉ program) →
        InnerNeverAnswers ((twiceCached e outerOn innerOn).run program).2.factory) := by
  constructor
  · have hmirrored : ((twiceCached e outerOn innerOn).run program).2.factory.Mirrored := by
      refine invariant_run (fun step _ made => ?_)
        (Cache.mirrored_ofContext outerOn innerOn trivial)
      exact .perform Cache.stable_mirrored fun _ _ op' c hc => hc.apply op'
    exact inLockstep_of_mirrored hmirrored
  · rintro rfl rfl hprogram
    have hdoubled : Doubled ((twiceCached e true true).run program).2.factory := by
      refine invariant_run (fun step hstep made => ?_) (doubled_ofContext e)
      refine Doubled.leaves_perform (fun depth hdepth => ?_) made
      rintro rfl
      exact hprogram depth hdepth hstep
    exact ⟨hdoubled.hits, hdoubled.entries, hdoubled.misses⟩

/-- Sums with memos on throughout, after a product that is refused and with a handle that was not
handed out. -/
theorem Session.caches_in_lockstep_of_sums :
    let program : List Step := [.apply (.parameter 0), .setFailing .multiply true,
      .apply (.multiply 0 0), .apply (.add 0 0), .foreign ⟨9⟩, .apply (.add 0 4), .setMemo 0 true,
      .apply (.subtract 3 0)]
    InLockstep ((twiceCached (.ofNames ["x"]) true true).run program).2.factory ∧
      (∀ depth < 2, .setMemo depth false ∉ program) ∧
      InnerNeverAnswers ((twiceCached (.ofNames ["x"]) true true).run program).2.factory := by
  intro program
  have hprogram : ∀ depth < 2, .setMemo depth false ∉ program := by simp [program]
  obtain ⟨hlockstep, hnever⟩ := caches_in_lockstep (.ofNames ["x"]) true true program
  exact ⟨hlockstep, hprogram, hnever rfl rfl hprogram⟩

end FunctionCache
