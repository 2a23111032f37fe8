import FunctionCache.Proofs.Layers.Bottom
import FunctionCache.Proofs.Layers.Cached
import FunctionCache.Proofs.Programs.Scheduled

/-!
# Memos do not change the numbering

Whether memos are on decides what is computed, but not what is stored: a
remembered handle is the one that storing the result again would return. So two
runs of one program on the same stack of caches hand out the same handles and
store the same functions, however their memos are set. This includes steps with
handles that were never handed out.

* `Step.OnHandles` — the steps on functions and handles;
* `SameNumbers` — two runs give the same answers, make the same handles and
  store equally many functions in each cache;
* `Link.toItself` — what carries it from step to step: states with the same
  erasure;
* `Session.memos_keep_numbers` — the result.
-/

namespace FunctionCache

open LayeredFactory Erasable Storage Transparent

/-- The steps on functions over `n` parameters and on handles, valid or not. -/
def Step.OnHandles (n : Nat) : Step → Prop
  | foreign _ | find _ _ => True
  | step => step.Common n

instance (n : Nat) : (step : Step) → Decidable (step.OnHandles n)
  | .polynomial p => inferInstanceAs (Decidable (p.numVars = n))
  | .fraction p q => inferInstanceAs (Decidable (p.numVars = n ∧ q.numVars = n))
  | .setMemo _ _ | .setFailing _ _ | .statistics => .isFalse id
  | .foreign _ | .find _ _ | .constant _ | .apply _ | .renew _ | .evaluate _ _ _
  | .constantValue _ | .check _ _ _ | .properties _ | .reveal _ | .equal _ _ | .parameters =>
    .isTrue trivial

/-- Two runs hand out the same handles. -/
structure SameNumbers {S : Type} [LayeredFactory S Handle]
    (run run' : List (Except StepError Answer) × Session S Handle) : Prop where
  /-- Each step gives the same answer, with the same handles and sizes, or fails with the same
  error. -/
  answers : run.1 = run'.1
  /-- Each step makes the same handle of the outermost cache, or none. -/
  made : run.2.made = run'.2.made
  /-- Each cache holds equally many functions. -/
  sizes : sizes run.2.factory = sizes run'.2.factory

section

variable {S F : Type} [LayeredFactory S F] [BEq F] [LawfulBEq F] [Hashable F] [Erasable S]

/-- Two states of a stack of caches that differ in what they remember. -/
def Link.toItself (S : Type) {F : Type} [LayeredFactory S F] [BEq F] [LawfulBEq F] [Hashable F]
    [Erasable S] [Storage S F] : Link (Cache S F) (Cache S F) where
  States c c' := erase c = erase c'
  Functions _ _ h h' := h = h'
  Answers := Eq
  parameters_eq h := (Extends.of_erase_eq h).parameters.symm
  states_of_erase_eq h h' hs := h.symm.trans (hs.trans h')
  functions_of_extends _ _ h := h
  reveal_eq {c c' h h'} hs hh := by
    rw [hh, ← reveal_erase, hs, reveal_erase]
  inParameters hc _ _ hr := hc.inParameters hr
  beq_eq _ _ _ h h' := by rw [h, h']
  states_embed r h := (alike_embed r h).2
  functions_embed r h := (alike_embed r h).1
  answers_function {c c' h h' hs hs'} text hstates hh hhandles hhandles' := by
    rw [hh, ← handles_erase, hstates, handles_erase, hhandles'] at hhandles
    rw [← sizes_erase c, hstates, sizes_erase, Except.ok.inj hhandles]
  answers_self _ := rfl

variable [Transparent S F]

/-- Steps on handles keep two states with the same erasure together. -/
theorem keeps_of_onHandles {n : Nat} {step : Step} (hstep : step.OnHandles n) :
    (Link.toItself S).Keeps n step := by
  intro c c' made made' hs hn hmade
  by_cases hcommon : step.Common n
  · refine Link.coupled_perform hs hmade ?_
    rw [hn]
    exact hcommon
  · cases step with
    | foreign h =>
      -- the handle is taken as it is
      refine .bind (.get hs) fun t t' a b ht _ _ hab => ?_
      obtain ⟨rfl, rfl⟩ := hab
      exact .ok ht (.refl a) (.refl b) ⟨.some rfl, rfl⟩
    | find p q =>
      -- a look-up sees the tables only
      refine .bind (.look hs rfl) fun t t' r r' ht _ _ hr => ?_
      refine .bind (.get ht) fun u u' a b hu _ _ hab => ?_
      obtain ⟨rfl, rfl⟩ := hab
      have hfind : find? r a = find? r' b := by
        rw [hr, ← find?_erase, hu.states, find?_erase]
      rw [hfind]
      cases find? r' b with
      | none => exact .pure hu ⟨.none, rfl⟩
      | some h =>
        refine .bind (.look hu ?_) fun v v' hs hs' hv _ _ hhs => ?_
        · rw [← handles_erase, hu.states, handles_erase]
        · cases hhs
          exact .pure hv ⟨.none, rfl⟩
    | setMemo | setFailing | statistics => exact hstep.elim
    | constant | apply | polynomial | fraction | renew | evaluate | constantValue | check
      | properties | reveal | equal | parameters => exact absurd hstep hcommon

/-- Sessions on states with the same erasure have handed out the same handles. -/
theorem sameNumbers_of_together {answers answers' : List (Except StepError Answer)}
    {x y : Session (Cache S F) Handle}
    (hanswers : List.Forall₂ (Link.toItself S).Answered answers answers')
    (h : (Link.toItself S).Together x y) : SameNumbers (answers, x) (answers', y) where
  answers := by
    refine List.forall₂_eq_eq_eq ▸ hanswers.imp fun a b hab => ?_
    cases a <;> cases b <;> cases hab <;> rfl
  made := by
    have hmade := h.made.map_eq (φ := id) (ψ := id) fun _ _ hf => hf
    simpa using hmade
  sizes := by
    have hsizes := congrArg sizes h.joint.states
    rw [sizes_erase, sizes_erase] at hsizes
    exact hsizes

/-- Any two states of a stack that belong together give runs with the same numbers. -/
theorem Session.sameNumbers_runScheduled {c c' : Cache S F} (h : (Link.toItself S).Joint c c')
    {program program' : List Scheduled}
    (hsteps : program.map Scheduled.step = program'.map Scheduled.step)
    (hprogram : ∀ first ∈ program, first.step.OnHandles (engine c).numVars) :
    SameNumbers ((start c).runScheduled program) ((start c').runScheduled program') := by
  obtain ⟨hanswers, hend⟩ := (Link.together_start h).runScheduled rfl
    (fun first hfirst => keeps_of_onHandles (hprogram first hfirst)) hsteps
  exact sameNumbers_of_together hanswers hend

/-- New caches with other settings belong together. -/
theorem Session.joint_toItself (memoOn memoOn' : Bool) {s s' : S} (hs : Sound s) (hs' : Sound s')
    (hw : Willing s) (herase : erase s = erase s') :
    (Link.toItself S).Joint (Cache.ofContext memoOn s) (Cache.ofContext memoOn' s') where
  states := Cache.erase_ofContext memoOn memoOn' hs hs' herase
  sound := Cache.faithful_ofContext memoOn hs
  sound' := Cache.faithful_ofContext memoOn' hs'
  willing := Cache.willing_ofContext memoOn hs hw
  willing' := Cache.willing_ofContext memoOn' hs' (willing_of_erase_eq herase hw)

end

/-- **Memos do not change the numbering.** Two runs of the same steps, on one cache or on two, hand
out the same handles, find the same functions, fail alike and store equally many functions after
each step, whatever their memos are set to at first and however they are switched in between. -/
theorem Session.memos_keep_numbers (e : Engine) (outerOn innerOn outerOn' innerOn' : Bool)
    (program program' : List Scheduled)
    (hsteps : program.map Scheduled.step = program'.map Scheduled.step)
    (hprogram : ∀ first ∈ program, first.step.OnHandles e.numVars) (k : Nat) :
    SameNumbers ((cached e outerOn).runScheduled (program.take k))
        ((cached e outerOn').runScheduled (program'.take k)) ∧
      SameNumbers ((twiceCached e outerOn innerOn).runScheduled (program.take k))
        ((twiceCached e outerOn' innerOn').runScheduled (program'.take k)) := by
  have hbare := Metered.willing_ofContext e
  have hinner : Sound (Cache.ofContext innerOn (Metered.ofContext e)) :=
    Cache.faithful_ofContext innerOn trivial
  have hinner' : Sound (Cache.ofContext innerOn' (Metered.ofContext e)) :=
    Cache.faithful_ofContext innerOn' trivial
  have hparameters := Cache.parameters_ofContext innerOn (s := Metered.ofContext e) trivial
  have hsteps' : (program.take k).map Scheduled.step = (program'.take k).map Scheduled.step := by
    rw [List.map_take, List.map_take, hsteps]
  have honce := Session.joint_toItself outerOn outerOn' (s := Metered.ofContext e) trivial trivial
    hbare rfl
  have htwice := Session.joint_toItself outerOn outerOn' hinner hinner'
    (Cache.willing_ofContext innerOn trivial hbare)
    (Cache.erase_ofContext innerOn innerOn' trivial trivial rfl)
  refine ⟨Session.sameNumbers_runScheduled honce hsteps' fun first hfirst => ?_,
    Session.sameNumbers_runScheduled htwice hsteps' fun first hfirst => ?_⟩
  -- the parameters of a cache are those of the engine
  · rw [show engine _ = e from congrArg Engine.mk (Cache.parameters_ofContext outerOn trivial)]
    exact hprogram first (List.mem_of_mem_take hfirst)
  · rw [show engine _ = e from
      congrArg Engine.mk ((Cache.parameters_ofContext outerOn hinner).trans hparameters)]
    exact hprogram first (List.mem_of_mem_take hfirst)

/-- Sums in both orders and with a handle that was not handed out, once without switches and once
with memos on for the first sum only. -/
theorem Session.memos_keep_numbers_of_sums :
    let steps : List Step := [.polynomial (.one 2), .apply (.parameter 0), .apply (.add 0 1),
      .apply (.add 1 0), .foreign ⟨9⟩, .apply (.add 4 0)]
    let plain : List Scheduled := steps.map fun step => ⟨[], step⟩
    let switched : List Scheduled := steps.zipIdx.map fun (step, i) =>
      ⟨[(0, i == 2), (1, i == 2)], step⟩
    SameNumbers ((cached (.ofNames ["x", "y"]) true).runScheduled (plain.take 6))
        ((cached (.ofNames ["x", "y"]) true).runScheduled (switched.take 6)) ∧
      SameNumbers ((twiceCached (.ofNames ["x", "y"]) true true).runScheduled (plain.take 6))
        ((twiceCached (.ofNames ["x", "y"]) true false).runScheduled (switched.take 6)) := by
  intro steps plain switched
  exact memos_keep_numbers (.ofNames ["x", "y"]) _ _ _ _ plain switched rfl (by decide) 6

end FunctionCache
