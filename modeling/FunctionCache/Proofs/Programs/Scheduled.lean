import FunctionCache.Proofs.Programs.Lockstep
import FunctionCache.Proofs.Programs.Steps

/-!
# Programs with switches thrown in between

The memos of any cache may be switched between the steps of a program. A switch
is no step: it makes nothing and has no number, so the same program can run with
other switches, or on a stack without caches.

* `Scheduled` — a step and the switches thrown before it;
* `Session.runScheduled` — runs the steps and throws the switches;
* `Session.bare`, `.cached`, `.twiceCached` — sessions at the start;
* `Link.Together` — two sessions that belong together;
* `Link.Together.runScheduled` — they stay together over a whole run, whatever
  switches are thrown on either side.
-/

namespace FunctionCache

open LayeredFactory Erasable Storage Transparent

/-- A step and the switches that are thrown before it, each with the depth of a cache, 0 being the
outermost, and whether its memos are on from now on. -/
structure Scheduled where
  switches : List (Nat × Bool)
  step : Step

namespace Session

variable {S F : Type} [LayeredFactory S F] [BEq F]

/-- Switches the memos of a cache as a step would do, without counting it as one. -/
def throwSwitch (s : Session S F) (switch : Nat × Bool) : Session S F :=
  { s with factory := (s.step (.setMemo switch.1 switch.2)).2.factory }

/-- Performs the steps one after the other, and throws the switches before each. -/
def runScheduled (s : Session S F) :
    List Scheduled → List (Except StepError Answer) × Session S F
  | [] => ([], s)
  | first :: rest =>
    let (answer, s) := (first.switches.foldl throwSwitch s).step first.step
    let (answers, s) := s.runScheduled rest
    (answer :: answers, s)

/-- A session on the engine without caches. -/
def bare (e : Engine) : Session (Metered Engine) RationalFunction := start (.ofContext e)

/-- A session on a cache around the engine. -/
def cached (e : Engine) (memoOn : Bool) : Session CachedEngine Handle :=
  start (.ofContext memoOn (.ofContext e))

/-- A session on a cache around a cache around the engine. -/
def twiceCached (e : Engine) (outerOn innerOn : Bool) : Session TwiceCachedEngine Handle :=
  start (.ofContext outerOn (.ofContext innerOn (.ofContext e)))

/-- A switch at a depth without a cache does nothing. -/
theorem factory_throwSwitch (s : Session S F) (switch : Nat × Bool) :
    (s.throwSwitch switch).factory =
      (setMemoOn? switch.1 switch.2 s.factory).getD s.factory := by
  unfold throwSwitch step
  rw [run_setMemo]
  cases setMemoOn? switch.1 switch.2 s.factory <;> rfl

/-- **What the steps of a program keep**, and the switches too, a run keeps. -/
theorem invariant_runScheduled {P : S → Prop} {program : List Scheduled} {s : Session S F}
    (hswitch : ∀ {depth : Nat} {on : Bool} {s t : S}, setMemoOn? depth on s = some t → P s → P t)
    (hsteps : ∀ first ∈ program, ∀ made, Leaves P (first.step.perform made : StepAction S _))
    (hs : P s.factory) : P (s.runScheduled program).2.factory := by
  -- the switches before a step, one by one
  have hthrow (switches : List (Nat × Bool)) (s : Session S F) (hs : P s.factory) :
      P (switches.foldl throwSwitch s).factory := by
    induction switches generalizing s with
    | nil => exact hs
    | cons switch switches ih =>
      refine ih _ ?_
      rw [factory_throwSwitch]
      cases ht : setMemoOn? switch.1 switch.2 s.factory with
      | none => exact hs
      | some t => exact hswitch ht hs
  induction program generalizing s with
  | nil => exact hs
  | cons first rest ih =>
    have hswitched := hthrow first.switches s hs
    have hfirst : P ((first.switches.foldl throwSwitch s).step first.step).2.factory := by
      rw [factory_step]
      exact hsteps first List.mem_cons_self _ _ hswitched
    exact ih (fun next hnext => hsteps next (List.mem_cons_of_mem _ hnext)) hfirst

/-- Without switches a scheduled program is a program. -/
theorem runScheduled_of_no_switches (s : Session S F) (program : List Step) :
    s.runScheduled (program.map fun step => ⟨[], step⟩) = s.run program := by
  induction program generalizing s with
  | nil => rfl
  | cons first rest ih =>
    rw [List.map_cons, runScheduled, run]
    dsimp only [List.foldl_nil]
    rw [ih]

end Session

namespace Link

variable {S S' F F' : Type} [LayeredFactory S F] [LayeredFactory S' F'] [Erasable S] [Erasable S']
variable [BEq F] [BEq F'] (L : Link S S')

/-- Sessions on stacks that belong together, with earlier steps that do. -/
structure Together (x : Session S F) (y : Session S' F') : Prop where
  joint : L.Joint x.factory y.factory
  made : Paired (L.Functions x.factory y.factory) x.made y.made

/-- The same error, or answers that belong together. -/
def Answered : Except StepError Answer → Except StepError Answer → Prop
  | .ok a, .ok b => L.Answers a b
  | .error e, .error e' => e = e'
  | _, _ => False

/-- A step over `n` parameters that keeps the two stacks together. -/
def Keeps (n : Nat) (step : Step) : Prop :=
  ∀ {s : S} {s' : S'} {made : Array (Option F)} {made' : Array (Option F')}, L.Joint s s' →
    (engine s).numVars = n → Paired (L.Functions s s') made made' →
    L.Coupled L.Results s s' ((step.perform made).run s) ((step.perform made').run s')

variable {L} {x : Session S F} {y : Session S' F'}

/-- Sessions start together if their states belong together. -/
theorem together_start {s : S} {s' : S'} (h : L.Joint s s') :
    L.Together (Session.start s) (Session.start s') := ⟨h, .empty⟩

/-- **One step** on either side. -/
theorem Together.step (h : L.Together x y) {n : Nat} (hn : (engine x.factory).numVars = n)
    {step : Step} (hstep : L.Keeps n step) :
    L.Answered (x.step step).1 (y.step step).1 ∧
      L.Together (x.step step).2 (y.step step).2 ∧
      (engine (x.step step).2.factory).numVars = n := by
  have hcoupled := hstep h.joint hn h.made
  unfold Session.step
  rcases hx : (step.perform x.made).run x.factory with ⟨_ | ⟨f, a⟩, t⟩ <;>
    rcases hy : (step.perform y.made).run y.factory with ⟨_ | ⟨f', b⟩, t'⟩ <;>
    rw [hx, hy] at hcoupled
  · -- both steps fail
    cases hcoupled with
    | error joint later later' =>
      refine ⟨rfl, ⟨joint, ?_⟩, ?_⟩
      · exact (h.made.mono fun f f' => L.functions_of_extends later later').push .none
      · rw [← hn, ← later.engine]
  · -- one of the steps fails and the other does not: this is no coupled outcome
    cases hcoupled
  · cases hcoupled
  · -- both succeed
    cases hcoupled with
    | ok joint later later' result =>
      refine ⟨result.2, ⟨joint, ?_⟩, ?_⟩
      · exact (h.made.mono fun f f' => L.functions_of_extends later later').push result.1
      · rw [← hn, ← later.engine]

section

variable [Storage S F] [Storage S' F']

/-- What erasing cannot see may change on either side. -/
theorem Together.of_erase_eq (h : L.Together x y) {t : S} {t' : S'} (ht : erase x.factory = erase t)
    (ht' : erase y.factory = erase t') (hsound : Sound t) (hsound' : Sound t') :
    L.Together { x with factory := t } { y with factory := t' } where
  joint := h.joint.of_erase_eq ht ht' hsound hsound'
  made := h.made.mono fun _ _ => L.functions_of_extends (.of_erase_eq ht) (.of_erase_eq ht')

/-- Switches are erased. -/
theorem alike_throwSwitch (x : Session S F) (switch : Nat × Bool) :
    erase (x.throwSwitch switch).factory = erase x.factory ∧
      (Sound x.factory → Sound (x.throwSwitch switch).factory) := by
  rw [Session.factory_throwSwitch]
  cases h : setMemoOn? switch.1 switch.2 x.factory with
  -- no cache at this depth
  | none => exact ⟨rfl, id⟩
  | some t => exact ⟨erase_setMemoOn? h, sound_setMemoOn? h⟩

/-- Each side may throw switches of its own. -/
theorem Together.throwSwitches (h : L.Together x y) (left right : List (Nat × Bool)) :
    L.Together (left.foldl Session.throwSwitch x) (right.foldl Session.throwSwitch y) := by
  -- the switches on the left first, then those on the right
  induction left generalizing x with
  | cons switch left ih =>
    obtain ⟨herase, hsound⟩ := alike_throwSwitch x switch
    exact ih (h.of_erase_eq herase.symm rfl (hsound h.joint.sound) h.joint.sound')
  | nil =>
    induction right generalizing y with
    | nil => exact h
    | cons switch right ih =>
      obtain ⟨herase, hsound⟩ := alike_throwSwitch y switch
      exact ih (h.of_erase_eq rfl herase.symm h.joint.sound (hsound h.joint.sound'))

/-- Switches do not change the engine. -/
theorem engine_throwSwitches (x : Session S F) (switches : List (Nat × Bool)) :
    engine (switches.foldl Session.throwSwitch x).factory = engine x.factory := by
  induction switches generalizing x with
  | nil => rfl
  | cons switch switches ih =>
    rw [List.foldl_cons, ih]
    exact (Extends.of_erase_eq (alike_throwSwitch x switch).1.symm).engine

/-- **A whole run** keeps two sessions together, and all answers belong together, whatever switches
are thrown on either side. -/
theorem Together.runScheduled {program program' : List Scheduled} (h : L.Together x y) {n : Nat}
    (hn : (engine x.factory).numVars = n)
    (hprogram : ∀ first ∈ program, L.Keeps n first.step)
    (hsteps : program.map Scheduled.step = program'.map Scheduled.step) :
    List.Forall₂ L.Answered (x.runScheduled program).1 (y.runScheduled program').1 ∧
      L.Together (x.runScheduled program).2 (y.runScheduled program').2 := by
  -- on the steps, with both sessions and the switches on the right as they come
  induction program generalizing program' x y with
  | nil =>
    rw [List.map_nil] at hsteps
    rw [List.map_eq_nil_iff.mp hsteps.symm]
    exact ⟨.nil, h⟩
  | cons first rest ih =>
    obtain ⟨first', rest', rfl, hfirst, hrest⟩ := List.map_eq_cons_iff.mp hsteps.symm
    -- the switches of both sides, then the step that they have in common
    have hswitched := h.throwSwitches first.switches first'.switches
    rw [← engine_throwSwitches x first.switches] at hn
    obtain ⟨hanswer, htogether, hn⟩ := hswitched.step hn (hprogram first List.mem_cons_self)
    obtain ⟨hanswers, hend⟩ := ih htogether hn
      (fun p hp => hprogram p (List.mem_cons_of_mem _ hp)) hrest.symm
    rw [Session.runScheduled, Session.runScheduled, hfirst]
    exact ⟨.cons hanswer hanswers, hend⟩

end

end Link

end FunctionCache
