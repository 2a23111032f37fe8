import FunctionCache.Proofs.Cache.Entries
import FunctionCache.Proofs.Programs.Repetition
import FunctionCache.Proofs.Programs.Transparency

/-!
# Programs that run again

A program that makes functions can be run again on the cache that it left. It
makes the same functions under the same handles and fails where it failed, whether
memos are on or off either time, and nothing new is stored. With memos on, and if
nothing broke off the first time, the engine is not asked for any sum, product or
closure again.

A step of the second run meets the cache not as the same step left it, but as the
whole first run did. So what is known of a step and of a run is stated for all
later states (`Session.Recurs`), and the end of the first run is one of them.

* `Step.MakesFunction`, `Step.AsksMemo` — the steps in question;
* `Session.Recurs.andThen` — parts of a run, one after the other;
* `Session.recurs_step`, `Session.recurs_runScheduled` — a step and a run;
* `Session.replay_is_free` — the result.
-/

namespace FunctionCache

open LayeredFactory Erasable Storage Transparent CachedEngine

/-- The steps that make a function, from polynomials in `n` parameters or from earlier functions. -/
def Step.MakesFunction (n : Nat) : Step → Prop
  | constant _ | apply _ | renew _ => True
  | polynomial p => p.WellFormed n
  | fraction p q => p.WellFormed n ∧ q.WellFormed n
  | _ => False

/-- The step is a sum, a difference, a product or a closure. -/
def Step.AsksMemo : Step → Prop
  | apply op => op.AsksMemo
  | _ => False

/-- The answer without the sizes of the caches. -/
def Answer.withoutSizes : Answer → Answer
  | function text handles _ => function text handles []
  | a => a

/-- Whether an operation asks a memo does not depend on its operands. -/
theorem Operation.asksMemo_of_mapM {ε F G : Type} {g : F → Except ε G} {op : Operation F}
    {op' : Operation G} (h : op.mapM g = .ok op') (hop' : op'.AsksMemo) : op.AsksMemo := by
  obtain ⟨pairs, rfl, rfl, -⟩ := mapM_eq_ok.mp h
  cases pairs <;> exact hop'

/-! ## Steps that make a function -/

section

variable {made : Array (Option Handle)} {c c' : CachedEngine} {act : StepAction CachedEngine Handle}
variable {h : Handle}

/-- Without a function there is nothing to report on. -/
theorem Step.run_making_of_error {x : StepError} (hact : act.run c = (.error x, c')) :
    (Step.making act).run c = (.error x, c') := by
  rw [making, Stateful.run_bind, hact]

/-- A step fails with its operation. -/
theorem Step.fst_perform_apply_of_error {op : Operation Nat} {op' : Operation Handle}
    (hop : op.mapM (Step.found made) = .ok op') {x : Failure}
    (hx : ((FunctionFactory.apply op').run c).1 = .error x) :
    (((Step.apply op).perform made).run c).1 = .error (.failure x) := by
  have hact : (op.mapM (Step.operand made) >>= fun op' =>
      StepAction.ofAction (FunctionFactory.apply op')).run c =
        (.error (.failure x), ((FunctionFactory.apply op').run c).2) := by
    rw [Stateful.run_bind_of_ok (hop ▸ Step.run_operands made op c)]
    show (((FunctionFactory.apply op').run c).1.mapError StepError.failure, _) = _
    rw [hx]
    rfl
  exact congrArg Prod.fst (Step.run_making_of_error hact)

/-- The report on a function that has just been made. -/
theorem Step.run_making_of_ok {r : RationalFunction} (hact : act.run c = (.ok h, c'))
    (hr : LayeredFactory.reveal h c' = .ok r) :
    (Step.making act).run c =
      (.ok (some h, .function ((engine c').format r) [h] [c'.size]), c') := by
  -- the cache around the engine has one handle for it
  have hhandles : handles h c' = .ok [h] := by
    obtain ⟨f, hf, -⟩ := Cache.reveal_eq_ok.mp hr
    show (c'.table.resolve h >>= fun f => handles f c'.context >>= fun hs => pure (h :: hs)) = _
    rw [Table.resolve_eq_ok.mpr hf]
    rfl
  have hformat : format h c' = .ok ((engine c').format r) := by
    rw [format, hr]
    rfl
  have hreport : (StepAction.ofState (report h)).run c' =
      (.ok (.function ((engine c').format r) [h] [c'.size]), c') := by
    show ((report h c').mapError StepError.failure, c') = _
    rw [report, hformat, hhandles]
    rfl
  rw [making, Stateful.run_bind_of_ok hact, Stateful.run_bind_of_ok hreport]
  rfl

end

namespace CachedEngine

variable {e : Engine} {quiet : Prop} {c : CachedEngine}

/-- **A step that makes a function** can be repeated. -/
theorem Repeats.perform (hc : Steady e quiet c) {made : Array (Option Handle)}
    (hmade : ∀ h, some h ∈ made → ∃ r, reveal h c = .ok r) {step : Step}
    (hstep : step.MakesFunction e.numVars)
    (hcalm : quiet → step.AsksMemo →
      ∀ fault, ((step.perform made).run c).1 ≠ .error (.failure (.fault fault))) :
    ∃ act : StepAction CachedEngine Handle,
      step.perform made = Step.making act ∧ Repeats e quiet act c := by
  cases step with
  | constant k => exact ⟨_, rfl, .ofAction (.constant hc k)⟩
  | apply op =>
    refine ⟨_, rfl, .look_bind hc (Step.run_operands made op) fun op' hop' => .ofAction
      (.apply hc (fun h hh => ?_) fun hq hmemo fault hfault => ?_)⟩
    · obtain ⟨a, -, ha⟩ := Operation.exists_operand_of_mapM hop' hh
      exact hmade h (Step.mem_of_found ha)
    · exact hcalm hq (Operation.asksMemo_of_mapM hop' hmemo) fault
        (Step.fst_perform_apply_of_error hop' hfault)
  | polynomial p =>
    refine ⟨_, rfl, .congr (fun s hs => ?_) hc (.ofAction (.embed hc (.polynomial hstep)))⟩
    have hn : FunctionFactory.numVariables s = e.numVars := by
      rw [← hs.confined.engine]
      rfl
    rw [Stateful.run_bind_of_ok (Stateful.run_get s), hn]
    rfl
  -- the fraction does not depend on the state
  | fraction p q =>
    refine ⟨_, rfl, .look_bind hc (x := (RationalFunction.ofFraction p q).mapError .failure)
      (fun s => rfl) fun f hf => .ofAction (.embed hc (.fraction hstep.1 hstep.2 ?_))⟩
    cases hr : RationalFunction.ofFraction p q with
    | error x =>
      rw [hr] at hf
      cases hf
    | ok f' =>
      rw [hr] at hf
      exact congrArg Except.ok (Except.ok.inj hf)
  -- neither does the operand
  | renew a =>
    refine ⟨_, rfl, .look_bind hc (Step.run_operand made a) fun h hh => ?_⟩
    obtain ⟨r, hr⟩ := hmade h (Step.mem_of_found hh)
    exact .ofAction (.renew hc hr)
  | foreign | find | evaluate | constantValue | check | properties | reveal | equal | setMemo
    | setFailing | statistics | parameters => exact hstep.elim

/-- Switching memos stores nothing. They are not switched off if they are needed. -/
theorem Steady.throwSwitch {x : Session CachedEngine Handle} (hx : Steady e quiet x.factory)
    {depth : Nat} {on : Bool} (hswitch : quiet → (depth, on) ≠ (0, false)) :
    Still e quiet x.factory (x.throwSwitch (depth, on)).factory := by
  rw [Session.factory_throwSwitch]
  cases depth with
  -- there is one cache
  | succ depth => exact .refl hx
  | zero =>
    have hset : setMemoOn? 0 on x.factory = some (x.factory.setMemoOn on) := rfl
    have hconfined := hx.confined.setMemoOn? hset
    have hon (hq : quiet) : on = true := by
      cases on with
      | true => rfl
      | false => exact absurd rfl (hswitch hq)
    exact ⟨⟨⟨hconfined, hx.willing, hon⟩, .of_erase_eq rfl, id⟩, rfl, fun _ => .of_eq rfl rfl⟩

end CachedEngine

namespace Session

variable {e : Engine} {quiet : Prop} {x : Session CachedEngine Handle}

/-- The functions that the steps made are functions of the cache. -/
def Reveals (x : Session CachedEngine Handle) : Prop :=
  ∀ h, some h ∈ x.made → ∃ r, reveal h x.factory = .ok r

/-- Functions of the cache are functions of later caches. -/
theorem Reveals.later (hx : x.Reveals) {c : CachedEngine} (hc : Later e quiet x.factory c) :
    Reveals ⟨c, x.made⟩ := by
  intro h hh
  obtain ⟨r, hr⟩ := hx h hh
  exact ⟨r, hc.keeps.reveal hr⟩

/-- One more step, with a function of the cache or none. -/
theorem Reveals.push (hx : x.Reveals) {o : Option Handle}
    (ho : ∀ h, o = some h → ∃ r, reveal h x.factory = .ok r) :
    Reveals ⟨x.factory, x.made.push o⟩ := by
  intro h hh
  rcases Array.mem_push.mp hh with hh | hh
  · exact hx h hh
  · exact ho h hh.symm

/-- A part of a run: what it answers, and the session after it. -/
abbrev Part := Session CachedEngine Handle →
  List (Except StepError Answer) × Session CachedEngine Handle

namespace Part

/-- Switches that are thrown. -/
def ofSwitches (switches : List (Nat × Bool)) : Part := fun x => ([], switches.foldl throwSwitch x)

/-- A step, with its answer up to the sizes of the cache. -/
def ofStep (step : Step) : Part := fun x =>
  ([(x.step step).1.map Answer.withoutSizes], (x.step step).2)

/-- A scheduled program, with its answers up to the sizes of the cache. -/
def ofProgram (program : List Scheduled) : Part := fun x =>
  ((x.runScheduled program).1.map (·.map Answer.withoutSizes), (x.runScheduled program).2)

/-- One part after the other. -/
def andThen (first second : Part) : Part := fun x =>
  ((first x).1 ++ (second (first x).2).1, (second (first x).2).2)

theorem ofProgram_cons (first : Scheduled) (rest : List Scheduled) :
    ofProgram (first :: rest) =
      (ofSwitches first.switches).andThen ((ofStep first.step).andThen (ofProgram rest)) := rfl

/-- A step fails with its action. -/
theorem ofStep_of_error {step : Step} {act : StepAction CachedEngine Handle}
    (hperform : step.perform x.made = Step.making act) {err : StepError} {c : CachedEngine}
    (hact : act.run x.factory = (.error err, c)) :
    ofStep step x = ([.error err], ⟨c, x.made.push none⟩) := by
  rw [ofStep, Session.step, hperform, Step.run_making_of_error hact]
  rfl

/-- A step answers with the text and the handle of the function made. -/
theorem ofStep_of_ok {step : Step} {act : StepAction CachedEngine Handle}
    (hperform : step.perform x.made = Step.making act) {h : Handle} {c : CachedEngine}
    (hact : act.run x.factory = (.ok h, c)) {r : RationalFunction} (hr : reveal h c = .ok r) :
    ofStep step x =
      ([.ok (.function ((engine c).format r) [h] [])], ⟨c, x.made.push (some h)⟩) := by
  rw [ofStep, Session.step, hperform, Step.run_making_of_ok hact hr]
  rfl

end Part

/-- The first part leads to a later state. At any time after that, the second part gives the same
answers, makes the same functions and stores nothing. -/
structure Recurs (e : Engine) (quiet : Prop) (first second : Part)
    (x : Session CachedEngine Handle) : Prop where
  later : Later e quiet x.factory (first x).2.factory
  reveals : (first x).2.Reveals
  again {t : CachedEngine} : Later e quiet (first x).2.factory t →
    ∃ t', second ⟨t, x.made⟩ = ((first x).1, ⟨t', (first x).2.made⟩) ∧ Still e quiet t t'

/-- The second time, each part starts later than it ended the first time. -/
theorem Recurs.andThen {first first' second second' : Part} (h : Recurs e quiet first first' x)
    (h' : Recurs e quiet second second' (first x).2) :
    Recurs e quiet (first.andThen second) (first'.andThen second') x where
  later := h.later.trans h'.later
  reveals := h'.reveals
  again ht := by
    obtain ⟨u, hu, hstill⟩ := h.again (h'.later.trans ht)
    obtain ⟨v, hv, hstill'⟩ := h'.again (ht.trans hstill.toLater)
    refine ⟨v, ?_, hstill.trans hstill'⟩
    rw [Part.andThen, hu, hv]
    rfl

/-! ## Switches, steps and runs -/

/-- Any number of switches, none of which switches off what is needed. -/
theorem still_throwSwitches (hx : Steady e quiet x.factory) (switches : List (Nat × Bool))
    (hswitches : quiet → (0, false) ∉ switches) :
    ∃ t, switches.foldl throwSwitch x = ⟨t, x.made⟩ ∧ Still e quiet x.factory t := by
  induction switches generalizing x with
  | nil => exact ⟨x.factory, rfl, .refl hx⟩
  | cons switch switches ih =>
    have hfirst := hx.throwSwitch fun hq h => hswitches hq (h ▸ List.mem_cons_self)
    obtain ⟨t, ht, hrest⟩ := ih hfirst.steady fun hq h => hswitches hq (List.mem_cons_of_mem _ h)
    exact ⟨t, ht, hfirst.trans hrest⟩

/-- Other switches make no difference. -/
theorem recurs_switches (hx : Steady e quiet x.factory) (hmade : x.Reveals)
    {switches switches' : List (Nat × Bool)} (hswitches : quiet → (0, false) ∉ switches)
    (hswitches' : quiet → (0, false) ∉ switches') :
    Recurs e quiet (.ofSwitches switches) (.ofSwitches switches') x := by
  obtain ⟨c, hc, hstill⟩ := still_throwSwitches hx switches hswitches
  have hfirst : Part.ofSwitches switches x = ([], ⟨c, x.made⟩) := by rw [Part.ofSwitches, hc]
  refine ⟨?_, ?_, fun {t} ht => ?_⟩
  · rw [hfirst]
    exact hstill.toLater
  · rw [hfirst]
    exact hmade.later hstill.toLater
  · rw [hfirst]
    obtain ⟨t', ht', hstill'⟩ :=
      still_throwSwitches (x := ⟨t, x.made⟩) ht.steady switches' hswitches'
    exact ⟨t', by rw [Part.ofSwitches, ht'], hstill'⟩

/-- **A step** that makes a function can be repeated. -/
theorem recurs_step (hx : Steady e quiet x.factory) (hmade : x.Reveals) {step : Step}
    (hstep : step.MakesFunction e.numVars)
    (hcalm : quiet → step.AsksMemo →
      ∀ fault, (x.step step).1 ≠ .error (.failure (.fault fault))) :
    Recurs e quiet (.ofStep step) (.ofStep step) x := by
  obtain ⟨act, hperform, hrepeats⟩ := Repeats.perform hx hmade hstep fun hq hmemo fault hfault => by
    refine hcalm hq hmemo fault ?_
    rw [Session.step, show (step.perform x.made).run x.factory = (_, _) from Prod.ext hfault rfl]
  have hlater := hrepeats.later
  have hagain {t : CachedEngine} := hrepeats.again (t := t)
  rcases hact : act.run x.factory with ⟨err | h, c⟩
  · -- the step fails, both times with the same error
    have hfirst := Part.ofStep_of_error hperform hact
    rw [hact] at hlater hagain
    refine ⟨?_, ?_, fun {t} ht => ?_⟩
    · rw [hfirst]
      exact hlater
    · rw [hfirst]
      exact (hmade.later hlater).push (by simp)
    · rw [hfirst] at ht ⊢
      obtain ⟨t', hrun, hstill⟩ := hagain ht
      exact ⟨t', Part.ofStep_of_error (x := ⟨t, x.made⟩) hperform hrun, hstill⟩
  · -- the step makes a function, which has the same text later on
    obtain ⟨r, hr⟩ := hrepeats.reveals (by rw [hact])
    rw [hact] at hlater hagain hr
    have hfirst := Part.ofStep_of_ok hperform hact hr
    refine ⟨?_, ?_, fun {t} ht => ?_⟩
    · rw [hfirst]
      exact hlater
    · rw [hfirst]
      refine (hmade.later hlater).push fun h' hh' => ?_
      cases hh'
      exact ⟨r, hr⟩
    · rw [hfirst] at ht ⊢
      obtain ⟨t', hrun, hstill⟩ := hagain ht
      have hkeeps := ht.keeps.trans hstill.keeps
      refine ⟨t', ?_, hstill⟩
      rw [Part.ofStep_of_ok (x := ⟨t, x.made⟩) hperform hrun (hkeeps.reveal hr), hkeeps.engine]

/-- **A run** of steps that make functions can be repeated with other switches. -/
theorem recurs_runScheduled {program program' : List Scheduled} (hx : Steady e quiet x.factory)
    (hmade : x.Reveals) (hprogram : ∀ p ∈ program, p.step.MakesFunction e.numVars)
    (hsteps : program'.map Scheduled.step = program.map Scheduled.step)
    (hswitches : quiet → ∀ p ∈ program ++ program', (0, false) ∉ p.switches)
    (hcalm : quiet → ∀ p ∈ program.zip (x.runScheduled program).1, p.1.step.AsksMemo →
      ∀ fault, p.2 ≠ .error (.failure (.fault fault))) :
    Recurs e quiet (.ofProgram program) (.ofProgram program') x := by
  induction program generalizing program' x with
  | nil =>
    rw [List.map_nil, List.map_eq_nil_iff] at hsteps
    subst hsteps
    exact ⟨.refl hx, hmade, fun {t} ht => ⟨t, rfl, .refl ht.steady⟩⟩
  | cons first rest ih =>
    obtain ⟨first', rest', rfl, hfirst, hrest⟩ := List.map_eq_cons_iff.mp hsteps
    -- the switches, the step, and the rest of the program, each as a part of its own
    have hthrown : Recurs e quiet (.ofSwitches first.switches) (.ofSwitches first'.switches) x :=
      recurs_switches hx hmade (fun hq => hswitches hq first (by simp)) fun hq =>
        hswitches hq first' (by simp)
    have hstep := recurs_step hthrown.later.steady hthrown.reveals
      (hprogram first List.mem_cons_self) fun hq => hcalm hq (first, _) List.mem_cons_self
    have hrun := ih hstep.later.steady hstep.reveals
      (fun p hp => hprogram p (List.mem_cons_of_mem _ hp)) hrest
      (fun hq p hp => hswitches hq p (by simp only [List.mem_append, List.mem_cons] at hp ⊢; tauto))
      fun hq p hp => hcalm hq p (List.mem_cons_of_mem _ hp)
    rw [Part.ofProgram_cons, Part.ofProgram_cons, hfirst]
    exact hthrown.andThen (hstep.andThen hrun)

/-! ## The result -/

/-- What a program does on the cache that an earlier run left. -/
structure Replayed (first second : List (Except StepError Answer) × Session CachedEngine Handle) :
    Prop where
  /-- Step by step the same function under the same handle, or the same error. -/
  answers : second.1.map (·.map Answer.withoutSizes) = first.1.map (·.map Answer.withoutSizes)
  made : second.2.made = first.2.made
  /-- No function is stored. -/
  table : second.2.factory.table = first.2.factory.table

/-- Memos are on throughout two runs, and no sum, difference, product or closure of the first one
breaks off. -/
structure Undisturbed (c : CachedEngine) (program program' : List Scheduled)
    (answers : List (Except StepError Answer)) : Prop where
  memoOn : c.memoOn = true
  switches : ∀ p ∈ program ++ program', (0, false) ∉ p.switches
  answers : ∀ p ∈ program.zip answers, p.1.step.AsksMemo →
    ∀ fault, p.2 ≠ .error (.failure (.fault fault))

/-- **A replay is free.** Take any state of a cache around an engine that refuses nothing, in which
all functions are functions of the parameters, and run a program that makes functions twice in a
row, throwing any switches. The second run gives the same answers and makes the same functions under
the same handles, and it stores nothing. If memos are on all the time and no sum, difference,
product or closure breaks off, the second run calls the engine for none of them, and the memos are
asked with success only. -/
theorem replay_is_free {e : Engine} {memoOn : Bool} {c : CachedEngine}
    (hreachable : CachedEngine.Reachable e memoOn c)
    (hfunctions : ∀ h f, reveal h c = .ok f → e.Constructible f) (hwilling : Willing c)
    {made : Array (Option Handle)} (hmade : ∀ h, some h ∈ made → ∃ f, reveal h c = .ok f)
    {program program' : List Scheduled} (hprogram : ∀ p ∈ program, p.step.MakesFunction e.numVars)
    (hsteps : program'.map Scheduled.step = program.map Scheduled.step) :
    let first := runScheduled ⟨c, made⟩ program
    let second := runScheduled ⟨first.2.factory, made⟩ program'
    Replayed first second ∧
      (Undisturbed c program program' first.1 →
        OnlyHits first.2.factory second.2.factory) := by
  intro first second
  obtain ⟨hfaithful, hengine⟩ := hreachable.faithful
  have hsteady : Steady e (Undisturbed c program program' first.1) c :=
    ⟨⟨hfaithful, hengine, hfunctions _ _⟩, hwilling, fun h => h.memoOn⟩
  have hrecurs : Recurs e (Undisturbed c program program' first.1) (.ofProgram program)
      (.ofProgram program') ⟨c, made⟩ :=
    recurs_runScheduled hsteady hmade hprogram hsteps (fun h => h.switches) fun h => h.answers
  -- the end of the first run is a state after it
  obtain ⟨t, ht, hstill⟩ := hrecurs.again (.refl hrecurs.later.steady)
  obtain ⟨hanswers, hsession⟩ := Prod.mk.inj ht
  have hsecond : second.2 = ⟨t, first.2.made⟩ := hsession
  rw [hsecond]
  exact ⟨⟨hanswers, by rw [hsecond], by rw [hsecond]; exact hstill.table⟩, hstill.onlyHits⟩

/-- The closure of `x - 1`, twice on a new cache. -/
theorem replay_is_free_of_closure :
    let c : CachedEngine := .ofContext true (.ofContext (.ofNames ["x"]))
    let program : List Scheduled := [⟨[], .apply (.parameter 0)⟩, ⟨[], .constant .one⟩,
      ⟨[], .apply (.subtract 0 1)⟩, ⟨[], .apply (.star 2)⟩]
    let program' : List Scheduled := [⟨[], .apply (.parameter 0)⟩, ⟨[], .constant .one⟩,
      ⟨[(0, true)], .apply (.subtract 0 1)⟩, ⟨[], .apply (.star 2)⟩]
    let first := runScheduled ⟨c, #[]⟩ program
    let second := runScheduled ⟨first.2.factory, #[]⟩ program'
    Undisturbed c program program' first.1 ∧
      Replayed first second ∧ OnlyHits first.2.factory second.2.factory := by
  intro c program program'
  have hbare := Metered.willing_ofContext (Engine.ofNames ["x"])
  have hjoint := joint_toEngine true (m := .ofContext (.ofNames ["x"])) trivial hbare hbare rfl
  -- the engine alone breaks nothing off, and so neither does the cache
  have hagrees : Agrees (runScheduled ⟨c, #[]⟩ program)
      ((bare (.ofNames ["x"])).run (program.map Scheduled.step)) :=
    agrees_runScheduled hjoint (by simp [program, Step.Common])
  have hundisturbed : Undisturbed c program program' (runScheduled ⟨c, #[]⟩ program).1 := by
    refine ⟨rfl, by decide, fun p hp _ fault hfault => ?_⟩
    have hok := hagrees.isOk (by decide +kernel) p.2 (List.of_mem_zip hp).2
    rw [hfault] at hok
    cases hok
  have hstored : c.Confined (.ofNames ["x"]) (Engine.Constructible (.ofNames ["x"])) :=
    Cache.confined_ofContext true trivial rfl (.constant .one) (.constant .zero)
  have hprogram : ∀ p ∈ program, p.step.MakesFunction (Engine.ofNames ["x"]).numVars := by
    simp [program, Step.MakesFunction]
  have hsteps : program'.map Scheduled.step = program.map Scheduled.step := rfl
  have hmade : ∀ h, some h ∈ (#[] : Array (Option Handle)) → ∃ f, reveal h c = .ok f := by simp
  obtain ⟨hreplayed, hhits⟩ :=
    replay_is_free (c := c) .refl (fun h f => hstored.stored) hjoint.willing hmade hprogram hsteps
  exact ⟨hundisturbed, hreplayed, hhits hundisturbed⟩

end Session

end FunctionCache
