import FunctionCache.Proofs.Cache.Calls
import FunctionCache.Proofs.Programs.Stored
import FunctionCache.Proofs.RationalFunction.Totality

/-!
# Doing the same again

What a cache has made once it finds again. An action that stored a function meets
this function when it is repeated, however much has been stored in between, and a
memoized operation that succeeded meets its own entry. A difference does both: it
finds the negated operand, so that its sum has the key of the first time.

* `CachedEngine.Steady` — caches of functions over the parameters of their engine;
* `CachedEngine.Later` — what such a cache becomes in time;
* `CachedEngine.Still` — what it becomes without storing anything;
* `CachedEngine.Repeats` — an action that can be repeated at any later time, with
  a rule for each way to put actions together;
* `CachedEngine.Repeats.apply` — operations can be repeated.
-/

namespace FunctionCache

open LayeredFactory Erasable Storage Transparent

/-- **All operations** of the engine lead from its functions to its functions. -/
theorem Engine.maintains_constructible (e : Engine) :
    e.Maintains (fun _ => True) e.Constructible where
  inParameters {f} hf := by
    have hnormal := hf.inherits (RationalFunction.hereditary_inNormalForm e.numVars)
    cases f with
    | fraction p q => exact ⟨hnormal.numerator.numVars, hnormal.denominator.numVars⟩
    | nan | posInf | negInf => trivial
  compute _ hop hf := .compute hop hf
  subtract _ := ⟨trivial, trivial⟩

/-- The operation looks a result up in a memo. A difference does so for its sum. -/
def Operation.AsksMemo {F : Type} : Operation F → Prop
  | add _ _ | subtract _ _ | multiply _ _ | star _ => True
  | _ => False

theorem Operation.asksMemo_of_memoKey? {op : Operation Handle} {k : MemoKey}
    (hk : op.memoKey? = some k) : op.AsksMemo := by
  cases op <;> cases hk <;> trivial

/-! ## References -/

namespace LayeredFactory

variable {S F : Type} [LayeredFactory S F] {op : Operation F} {s t : S}

/-- Where all operands stand for something, it is the engine that decides. -/
theorem exists_computed_eq (hop : ∀ a ∈ op.operands, ∃ r, reveal a s = .ok r) :
    ∃ op₀, op.mapM (reveal · s) = .ok op₀ ∧ computed op s = (engine s).compute op₀ := by
  have hok : (op.mapM (reveal · s)).isOk = true := by
    rw [Operation.isOk_mapM, List.all_eq_true]
    intro a ha
    obtain ⟨r, hr⟩ := hop a ha
    rw [hr]
    rfl
  cases hop₀ : op.mapM (reveal · s) with
  | error x =>
    rw [hop₀] at hok
    cases hok
  | ok op₀ =>
    refine ⟨op₀, rfl, ?_⟩
    rw [computed, hop₀]
    rfl

/-- A reference fails only if the engine does. -/
theorem computed_of_reference {x : Failure} (h : (reference op s).1 = .error x) :
    computed op s = .error x := by
  unfold reference at h
  cases hr : computed op s with
  | error y =>
    rw [hr] at h
    exact congrArg Except.error (Except.error.inj h)
  | ok r =>
    rw [hr] at h
    cases h

variable [Erasable S] [Storage S F]

/-- A reference that is repeated finds its result and stores nothing. -/
theorem reference_again (hop : ∀ a ∈ op.operands, ∃ r, reveal a s = .ok r) (ht : Sound t)
    (hext : Extends (reference op s).2 t) : reference op t = ((reference op s).1, t) := by
  -- operands that stand for something stand for the same later
  have hcomputed (hst : Extends s t) : computed op t = computed op s := by
    obtain ⟨op₀, hop₀, hs⟩ := exists_computed_eq hop
    rw [hs, computed, Operation.mapM_mono hop₀ fun _ _ => hst.reveal, hst.engine]
    rfl
  unfold reference at hext ⊢
  cases hr : computed op s with
  | error x =>
    rw [hr] at hext
    rw [hcomputed hext, hr]
  | ok r =>
    rw [hr] at hext
    rw [hcomputed ((Extends.of_embed r s).trans hext), hr]
    dsimp only
    rw [embed_of_reveal ht (hext.reveal (reveal_embed r s))]

end LayeredFactory

/-- Operations do not make the bottom refuse anything. -/
theorem Cache.Faithful.willing_apply {S F : Type} [LayeredFactory S F] [BEq F] [LawfulBEq F]
    [Hashable F] [Erasable S] [Transparent S F] {c : Cache S F} (hc : c.Faithful) (hw : Willing c)
    (op : Operation Handle) : Willing ((FunctionFactory.apply op).run c).2 := by
  have hboth := apply_invariant (P := fun c : Cache S F => c.Faithful ∧ Willing c)
    (fun c op hop h => by
      refine ⟨h.1.apply op, ?_⟩
      rcases (h.1.settles_apply hop).cases with ⟨-, -, hstate⟩ | ⟨r, -, -, hstate⟩
      · exact willing_of_erase_eq hstate.symm h.2
      · exact willing_of_erase_eq hstate.symm (willing_embed r h.2)) op ⟨hc, hw⟩
  exact hboth.2

namespace CachedEngine

variable {e : Engine} {quiet : Prop} {c t u : CachedEngine}

/-! ## Caches in time -/

/-- From one state to the other no sum, product or closure has been asked of the engine and nothing
has been remembered: the memos have been asked for what they held. -/
structure OnlyHits (c t : CachedEngine) : Prop where
  calls : calls t = calls c
  entries (m : Memoized) : (t.statistics.counts m).entries = (c.statistics.counts m).entries
  misses (m : Memoized) : (t.statistics.counts m).misses = (c.statistics.counts m).misses
  hits (m : Memoized) : (c.statistics.counts m).hits ≤ (t.statistics.counts m).hits

/-- Nothing has been asked if neither the memos nor the calls have changed. -/
theorem OnlyHits.of_eq (hcalls : LayeredFactory.calls t = LayeredFactory.calls c)
    (hmemos : t.memos = c.memos) : OnlyHits c t := by
  have hcounts (m : Memoized) : t.statistics.counts m = c.statistics.counts m := by
    rw [Cache.counts_statistics, Cache.counts_statistics, hmemos]
  exact ⟨hcalls, fun m => by rw [hcounts], fun m => by rw [hcounts], fun m => by rw [hcounts]⟩

/-- One stretch of time after another. -/
theorem OnlyHits.trans (h : OnlyHits c t) (h' : OnlyHits t u) : OnlyHits c u where
  calls := h'.calls.trans h.calls
  entries m := (h'.entries m).trans (h.entries m)
  misses m := (h'.misses m).trans (h.misses m)
  hits m := (h.hits m).trans (h'.hits m)

/-- A cache of functions over the parameters of `e`, around an engine that refuses nothing. In quiet
times, when calls of the engine are compared, its memos are on. -/
structure Steady (e : Engine) (quiet : Prop) (c : CachedEngine) : Prop where
  confined : c.Confined e e.Constructible
  willing : Willing c
  memoOn : quiet → c.memoOn = true

/-- A later state of a cache: what handles stand for and what memos hold is kept. -/
structure Later (e : Engine) (quiet : Prop) (c t : CachedEngine) : Prop where
  steady : Steady e quiet t
  keeps : Extends c t
  remembers {k : MemoKey} {h : Handle} : c.memos.find? k = some h → t.memos.find? k = some h

/-- A later state of a cache that has stored nothing in between. -/
structure Still (e : Engine) (quiet : Prop) (c t : CachedEngine) : Prop
    extends Later e quiet c t where
  table : t.table = c.table
  onlyHits : quiet → OnlyHits c t

theorem Later.refl (hc : Steady e quiet c) : Later e quiet c c := ⟨hc, .refl c, id⟩

/-- What is kept twice is kept. -/
theorem Later.trans (h : Later e quiet c t) (h' : Later e quiet t u) : Later e quiet c u :=
  ⟨h'.steady, h.keeps.trans h'.keeps, fun hk => h'.remembers (h.remembers hk)⟩

theorem Still.refl (hc : Steady e quiet c) : Still e quiet c c :=
  ⟨.refl hc, rfl, fun _ => .of_eq rfl rfl⟩

/-- Nothing is stored if nothing is stored in either stretch of time. -/
theorem Still.trans (h : Still e quiet c t) (h' : Still e quiet t u) : Still e quiet c u :=
  ⟨h.toLater.trans h'.toLater, h'.table.trans h.table,
    fun hq => (h.onlyHits hq).trans (h'.onlyHits hq)⟩

namespace Steady

/-- Storing a function of the engine leads to a later state. -/
theorem embed (hc : Steady e quiet c) {r : RationalFunction} (hr : e.Constructible r) :
    Later e quiet c (embed r c).2 :=
  ⟨⟨hc.confined.embed e.maintains_constructible hr, willing_embed r hc.willing, hc.memoOn⟩,
    .of_embed r c, id⟩

/-- **Every operation** leads to a later state. -/
theorem apply (hc : Steady e quiet c) (op : Operation Handle) :
    Later e quiet c ((FunctionFactory.apply op).run c).2 := by
  have hfaithful := hc.confined.faithful
  refine ⟨⟨hc.confined.apply e.maintains_constructible trivial,
    hfaithful.willing_apply hc.willing op, fun hq => ?_⟩,
    hfaithful.extends_apply op, Cache.find?_apply op⟩
  rw [Cache.memoOn_apply, hc.memoOn hq]

/-- A memoized operation on functions of the cache can only break off. -/
theorem isFault_of_apply (hc : Steady e quiet c) {op : Operation Handle} {k : MemoKey}
    (hk : op.memoKey? = some k) (hop : ∀ a ∈ op.operands, ∃ r, reveal a c = .ok r) {x : Failure}
    (hx : ((FunctionFactory.apply op).run c).1 = .error x) : ∃ fault, x = .fault fault := by
  have hplain (a b : Handle) : op ≠ .subtract a b := by
    rintro rfl
    cases hk
  obtain ⟨hresult, -⟩ := (hc.confined.faithful.settles_apply hplain).alike hc.willing
  -- nothing is refused and the operands are there, so it is the engine that fails
  have herror := computed_of_reference (hresult.symm.trans hx)
  obtain ⟨op₀, hop₀, hcomputed⟩ := exists_computed_eq hop
  rw [hcomputed, hc.confined.engine] at herror
  have hmemoized : op₀.memoized? = some k.operation :=
    (Operation.memoized?_of_mapM hop₀).trans (Operation.memoized?_of_memoKey? hk)
  refine ⟨_, Engine.overflows_of_memoized hmemoized (fun a ha => ?_) herror⟩
  obtain ⟨h, -, hreveal⟩ := Operation.exists_operand_of_mapM hop₀ ha
  exact (hc.confined.stored hreveal).inherits (RationalFunction.hereditary_inNormalForm e.numVars)

end Steady

end CachedEngine

/-! ## Calls that are repeated -/

namespace Call

/-- A call that succeeds with memos on leaves its result under its key. -/
theorem find?_after (x : Call) (hon : x.isOn = true) {h : Handle} (hh : x.result = .ok h) :
    x.after.memos.find? x.key = some h := by
  rcases x.cases with ⟨hoff, -⟩ | ⟨h', -, hfound, hresult, hmemos⟩ | ⟨y, -, -, hresult, -⟩ |
    ⟨h', -, -, hresult, hmemos⟩
  · cases hon.symm.trans hoff
  · cases hh.symm.trans hresult
    rw [hmemos, Memos.find?_ask, hfound]
  · cases hh.symm.trans hresult
  · cases hh.symm.trans hresult
    rw [hmemos, Memos.find?_record, if_pos rfl]

/-- A hit is all that a hit changes. -/
theorem onlyHits_of_isHit (x : Call) (hhit : x.isHit = true) :
    CachedEngine.OnlyHits x.before x.after where
  calls := by rw [calls_after, reaches, hhit]; rfl
  entries m := by rw [counts_after, hhit]; simp
  misses m := by rw [counts_after, hhit]; simp
  hits m := by rw [counts_after]; exact Nat.le_add_right ..

end Call

namespace CachedEngine

variable {e : Engine} {quiet : Prop} {c t : CachedEngine} {ε : Type}

/-- **An operation done again** asks no memo, or finds its result in one, unless it broke off. -/
theorem Steady.onlyHits_apply (hc : Steady e quiet c) {op : Operation Handle}
    (hplain : ∀ a b, op ≠ .subtract a b) (hop : ∀ a ∈ op.operands, ∃ r, reveal a c = .ok r)
    (hcalm : op.AsksMemo → ∀ fault, ((FunctionFactory.apply op).run c).1 ≠ .error (.fault fault))
    (hon : c.memoOn = true) (ht : Later e quiet ((FunctionFactory.apply op).run c).2 t)
    (hon' : t.memoOn = true) : OnlyHits t ((FunctionFactory.apply op).run t).2 := by
  cases hk : op.memoKey? with
  | none =>
    rw [Cache.apply_eq_delegate hk hplain]
    exact .of_eq (calls_delegate_of_memoKey?_eq_none hk t) (Cache.memos_delegate op t)
  | some k =>
    let x : Call := ⟨op, k, hk, c⟩
    let y : Call := ⟨op, k, hk, t⟩
    cases hresult : x.result with
    | error failure =>
      obtain ⟨fault, rfl⟩ := hc.isFault_of_apply hk hop hresult
      exact absurd hresult (hcalm (Operation.asksMemo_of_memoKey? hk) fault)
    | ok h =>
      -- the first call leaves its result under the key of the second one
      have hfound : t.memos.find? k = some h := ht.remembers (x.find?_after hon hresult)
      have hhit : y.isHit = true := by
        show (t.memoOn && (t.memos.find? k).isSome) = true
        rw [hon', hfound]
        rfl
      exact y.onlyHits_of_isHit hhit

/-! ## Actions that can be repeated -/

/-- The action leads to a later state, and at any time after that it has the same outcome and stores
nothing. -/
structure Repeats (e : Engine) (quiet : Prop) (act : ExceptT ε (StateM CachedEngine) Handle)
    (c : CachedEngine) : Prop where
  later : Later e quiet c (act.run c).2
  reveals {h : Handle} : (act.run c).1 = .ok h → ∃ r, reveal h (act.run c).2 = .ok r
  again {t : CachedEngine} : Later e quiet (act.run c).2 t →
    ∃ t', act.run t = ((act.run c).1, t') ∧ Still e quiet t t'

namespace Repeats

/-- An action that fails at once fails again. -/
theorem throw (hc : Steady e quiet c) (x : ε) :
    Repeats e quiet (MonadExcept.throw x : ExceptT ε (StateM CachedEngine) Handle) c where
  later := .refl hc
  reveals hh := by cases hh
  again ht := ⟨_, rfl, .refl ht.steady⟩

/-- An action may be replaced by one that does the same in all caches in question. -/
theorem congr {act act' : ExceptT ε (StateM CachedEngine) Handle}
    (hact : ∀ s, Steady e quiet s → act'.run s = act.run s) (hc : Steady e quiet c)
    (h : Repeats e quiet act c) : Repeats e quiet act' c := by
  have hrun := hact c hc
  refine ⟨?_, ?_, fun {t} ht => ?_⟩
  · rw [hrun]
    exact h.later
  · rw [hrun]
    exact h.reveals
  · rw [hrun] at ht ⊢
    rw [hact t ht.steady]
    exact h.again ht

/-- A look that does not depend on the state finds the same at any time. -/
theorem look_bind {α : Type} {look : ExceptT ε (StateM CachedEngine) α} {x : Except ε α}
    {next : α → ExceptT ε (StateM CachedEngine) Handle} (hc : Steady e quiet c)
    (hlook : ∀ s, look.run s = (x, s)) (hnext : ∀ a, x = .ok a → Repeats e quiet (next a) c) :
    Repeats e quiet (look >>= next) c := by
  cases x with
  | error y => exact .congr (fun s _ => by rw [Stateful.run_bind, hlook]; rfl) hc (.throw hc y)
  | ok a => exact .congr (fun s _ => Stateful.run_bind_of_ok (hlook s)) hc (hnext a rfl)

/-- A step can be repeated if its action can. -/
theorem ofAction {act : Action CachedEngine Handle} (h : Repeats e quiet act c) :
    Repeats e quiet (StepAction.ofAction act) c where
  later := h.later
  reveals {f} hf := by
    refine h.reveals ?_
    replace hf : (act.run c).1.mapError StepError.failure = .ok f := hf
    cases hresult : (act.run c).1 with
    | error x =>
      rw [hresult] at hf
      cases hf
    | ok f' =>
      rw [hresult] at hf
      exact congrArg Except.ok (Except.ok.inj hf)
  again {t} ht := by
    obtain ⟨t', hrun, hstill⟩ := h.again ht
    refine ⟨t', ?_, hstill⟩
    show ((act.run t).1.mapError StepError.failure, (act.run t).2) = _
    rw [hrun]
    rfl

/-- **Actions in sequence** can be repeated if the first one can, and the second one where it
started. -/
theorem bind {act : ExceptT ε (StateM CachedEngine) Handle}
    {next : Handle → ExceptT ε (StateM CachedEngine) Handle} (hact : Repeats e quiet act c)
    (hnext : ∀ h, (act.run c).1 = .ok h → Repeats e quiet (next h) (act.run c).2) :
    Repeats e quiet (act >>= next) c := by
  have hlater := hact.later
  have hagain {t : CachedEngine} := hact.again (t := t)
  rcases hrun : act.run c with ⟨x | h, c'⟩
  · -- the first action fails, and fails again
    have hbind {s s' : CachedEngine} (hs : act.run s = (.error x, s')) :
        (act >>= next).run s = (.error x, s') := by rw [Stateful.run_bind, hs]
    rw [hrun] at hlater hagain
    refine ⟨?_, fun hh => ?_, fun {t} ht => ?_⟩
    · rw [hbind hrun]
      exact hlater
    · rw [hbind hrun] at hh
      cases hh
    · rw [hbind hrun] at ht ⊢
      obtain ⟨t', hrun', hstill⟩ := hagain ht
      exact ⟨t', hbind hrun', hstill⟩
  · have hbind {s s' : CachedEngine} (hs : act.run s = (.ok h, s')) :
        (act >>= next).run s = (next h).run s' := Stateful.run_bind_of_ok hs
    have hrest := hnext h (by rw [hrun])
    rw [hrun] at hlater hagain hrest
    refine ⟨?_, ?_, fun {t} ht => ?_⟩
    · rw [hbind hrun]
      exact hlater.trans hrest.later
    · rw [hbind hrun]
      exact hrest.reveals
    · rw [hbind hrun] at ht ⊢
      -- the first action stores nothing, so the second one starts later than it did
      obtain ⟨u, hu, hstill⟩ := hagain (hrest.later.trans ht)
      obtain ⟨t', ht', hstill'⟩ := hrest.again (ht.trans hstill.toLater)
      exact ⟨t', (hbind hu).trans ht', hstill.trans hstill'⟩

/-- Storing again what is stored changes nothing. -/
theorem embed (hc : Steady e quiet c) {r : RationalFunction} (hr : e.Constructible r) :
    Repeats e quiet (Action.ofState (embed r)) c where
  later := hc.embed hr
  reveals hh := by
    cases hh
    exact ⟨r, reveal_embed r c⟩
  again {t} ht := by
    have hembed : LayeredFactory.embed r t = ((LayeredFactory.embed r c).1, t) :=
      embed_of_reveal ht.steady.confined.faithful (ht.keeps.reveal (reveal_embed r c))
    refine ⟨t, ?_, .refl ht.steady⟩
    rw [Stateful.run_ofState, Stateful.run_ofState, hembed]

/-- Making a constant is storing it. -/
theorem constant (hc : Steady e quiet c) (k : Constant) :
    Repeats e quiet (Action.ofState (FunctionFactory.constant k)) c := by
  refine .congr (fun s hs => ?_) hc (.embed hc (.constant k))
  rw [Stateful.run_ofState, Stateful.run_ofState, constant_eq k hs.confined.faithful,
    hs.confined.engine]

/-- A function that is stored already is stored again without a change. -/
theorem renew (hc : Steady e quiet c) {h : Handle} {r : RationalFunction}
    (hr : reveal h c = .ok r) : Repeats e quiet (renew h) c := by
  have hrenew {s : CachedEngine} (hs : Steady e quiet s) (hr : reveal h s = .ok r) :
      (LayeredFactory.renew h).run s = (.ok h, s) := by
    rw [renew_eq h hs.confined.faithful, hr]
    rfl
  refine ⟨?_, fun hh => ?_, fun {t} ht => ?_⟩
  · rw [hrenew hc hr]
    exact .refl hc
  · rw [hrenew hc hr] at hh ⊢
    cases hh
    exact ⟨r, hr⟩
  · rw [hrenew hc hr] at ht ⊢
    exact ⟨t, hrenew ht.steady (ht.keeps.reveal hr), .refl ht.steady⟩

/-! ## Operations -/

/-- Any operation but the difference, whose repetition finds its result in a table or in a memo. -/
private theorem apply_of_ne_subtract (hc : Steady e quiet c) {op : Operation Handle}
    (hplain : ∀ a b, op ≠ .subtract a b) (hop : ∀ a ∈ op.operands, ∃ r, reveal a c = .ok r)
    (hcalm : quiet → op.AsksMemo →
      ∀ fault, ((FunctionFactory.apply op).run c).1 ≠ .error (.fault fault)) :
    Repeats e quiet (FunctionFactory.apply op) c where
  later := hc.apply op
  reveals hh := by
    obtain ⟨r, -, hr⟩ := (hc.confined.faithful.settles_apply hplain).reveal_of_ok hh
    exact ⟨r, hr⟩
  again {t} ht := by
    have hfaithful := ht.steady.confined.faithful
    obtain ⟨hresult, hstate⟩ := (hc.confined.faithful.settles_apply hplain).alike hc.willing
    obtain ⟨hresult', hstate'⟩ := (hfaithful.settles_apply hplain).alike ht.steady.willing
    -- both times the operation does what its reference does
    have href := reference_again hop hfaithful
      ((Extends.of_erase_eq hstate.symm).trans ht.keeps)
    rw [href] at hresult' hstate'
    refine ⟨((FunctionFactory.apply op).run t).2, Prod.ext (hresult'.trans hresult.symm) rfl,
      ht.steady.apply op, ?_, fun hq => ?_⟩
    · -- erasing leaves the table as it is
      have htable := congrArg Cache.table hstate'
      exact htable
    · exact hc.onlyHits_apply hplain hop (hcalm hq) (hc.memoOn hq) ht (ht.steady.memoOn hq)

/-- **Operations** on functions of the cache can be repeated, and if they did not break off, all
that a repetition takes is found in memos. -/
theorem apply (hc : Steady e quiet c) {op : Operation Handle}
    (hop : ∀ a ∈ op.operands, ∃ r, reveal a c = .ok r)
    (hcalm : quiet → op.AsksMemo →
      ∀ fault, ((FunctionFactory.apply op).run c).1 ≠ .error (.fault fault)) :
    Repeats e quiet (FunctionFactory.apply op) c := by
  by_cases hsub : ∃ a b, op = .subtract a b
  · -- the negated operand is found, and then the sum
    obtain ⟨a, b, rfl⟩ := hsub
    simp only [Operation.operands, List.forall_mem_cons] at hop
    obtain ⟨⟨r, hr⟩, hb, -⟩ := hop
    have hnegate : Repeats e quiet (FunctionFactory.apply (.negate b)) c :=
      apply_of_ne_subtract hc (by simp) (by simpa [Operation.operands] using hb) fun _ h => h.elim
    rw [Cache.apply_subtract] at hcalm ⊢
    refine hnegate.bind fun h hh => apply_of_ne_subtract hnegate.later.steady (by simp) ?_ ?_
    · simp only [Operation.operands, List.forall_mem_cons]
      exact ⟨⟨r, hnegate.later.keeps.reveal hr⟩, hnegate.reveals hh, by simp⟩
    · intro hq hmemo fault hfault
      refine hcalm hq trivial fault ?_
      rw [Stateful.run_bind_of_ok (Prod.ext hh rfl), hfault]
  · exact apply_of_ne_subtract hc (fun a b h => hsub ⟨a, b, h⟩) hop hcalm

end Repeats

end CachedEngine

end FunctionCache
