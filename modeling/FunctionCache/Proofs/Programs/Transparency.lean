import FunctionCache.Proofs.Layers.Bottom
import FunctionCache.Proofs.Layers.Cached
import FunctionCache.Proofs.Programs.Scheduled

/-!
# Caches cannot be noticed

A program does the same on the bare engine, on a cache around it and on a cache
around a cache, whether memos are on or off and whenever they are switched. The
functions that a cache hands out are handles, and a handle stands for the very
function that the engine makes.

* `Agrees` — a run gives the answers of a run without caches, its handles stand
  for the functions of that run, and they are equal exactly if these are;
* `Link.toEngine` — what carries it from step to step: a handle belongs to the
  function that it stands for;
* `Session.caches_agree` — the result.
-/

namespace FunctionCache

open LayeredFactory Erasable Storage Transparent

/-- The answer without handles of functions and sizes of caches. -/
def Answer.withoutHandles : Answer → Answer
  | function text _ _ => function text [] []
  | a => a

/-- A run agrees with a run on the bare engine. -/
structure Agrees {S F : Type} [LayeredFactory S F]
    (run : List (Except StepError Answer) × Session S F)
    (bare : List (Except StepError Answer) × Session (Metered Engine) RationalFunction) : Prop where
  /-- Each step gives the same answer or fails with the same error. -/
  answers : run.1.map (·.map Answer.withoutHandles) = bare.1
  /-- Each step makes a handle that stands for the function made without caches, or both nothing. -/
  made : run.2.made.map (·.map (reveal · run.2.factory)) = bare.2.made.map (·.map Except.ok)
  /-- Handles are equal exactly if what they stand for is. -/
  equal : ∀ f g, some f ∈ run.2.made → some g ∈ run.2.made →
    (f = g ↔ reveal f run.2.factory = reveal g run.2.factory)

section

variable {S F : Type} [LayeredFactory S F] [BEq F] [LawfulBEq F] [Hashable F] [Erasable S]
variable [Storage S F]

/-- Handles that stand for the same function are equal. -/
theorem Cache.Faithful.reveal_inj {c : Cache S F} (hc : c.Faithful) {h h' : Handle}
    {r : RationalFunction} (hr : reveal h c = .ok r) (hr' : reveal h' c = .ok r) : h = h' := by
  have hembed := embed_of_reveal_eq_ok hc hr
  rw [embed_of_reveal_eq_ok hc hr'] at hembed
  exact (Prod.mk.inj hembed).1.symm

/-- A cache and the engine: a handle belongs to the function that it stands for. -/
def Link.toEngine (S : Type) {F : Type} [LayeredFactory S F] [BEq F] [LawfulBEq F] [Hashable F]
    [Erasable S] [Storage S F] : Link (Cache S F) (Metered Engine) where
  States c m := FunctionFactory.parameters c = FunctionFactory.parameters m
  Functions c _ h r := reveal h c = .ok r
  Answers a b := a.withoutHandles = b
  parameters_eq h := h
  states_of_erase_eq {s t s' t'} h h' hs := by
    rw [← (Extends.of_erase_eq h).parameters] at hs
    rw [hs, (Extends.of_erase_eq h').parameters]
  functions_of_extends h _ hf := h.reveal hf
  reveal_eq _ hf := hf
  inParameters hc _ _ hr := hc.inParameters hr
  beq_eq {c m h h' r r'} hc _ _ hr hr' := by
    rw [Bool.eq_iff_iff, beq_iff_eq, beq_iff_eq]
    constructor
    · -- a handle stands for one function
      rintro rfl
      exact Except.ok.inj (hr.symm.trans hr')
    · -- a function is stored once
      rintro rfl
      exact hc.reveal_inj hr hr'
  states_embed {c m} r h := (parameters_embed r c).trans h
  functions_embed {c m} r _ := reveal_embed r c
  answers_function {c m h r hs hs'} text _ _ _ hhandles := by
    cases hhandles
    rfl
  answers_self {a} ha := by
    cases a with
    | function text hs ns => exact absurd rfl (ha text hs ns)
    | _ => rfl

/-- Sessions that belong together have given the same answers and made the same functions. -/
theorem agrees_of_together {answers answers' : List (Except StepError Answer)}
    {x : Session (Cache S F) Handle} {y : Session (Metered Engine) RationalFunction}
    (hanswers : List.Forall₂ (Link.toEngine S).Answered answers answers')
    (h : (Link.toEngine S).Together x y) : Agrees (answers, x) (answers', y) where
  answers := by
    induction hanswers with
    | nil => rfl
    | @cons a b as bs hab _ ih =>
      -- without handles, answers that belong together are equal
      have hab' : a.map Answer.withoutHandles = b := by
        cases a <;> cases b <;> cases hab <;> rfl
      dsimp only at ih
      rw [List.map_cons, hab', ih]
  made := h.made.map_eq fun _ _ hf => hf
  equal f g hf hg := by
    obtain ⟨r, hr⟩ := h.made.exists_of_mem hf
    obtain ⟨r', hr'⟩ := h.made.exists_of_mem hg
    constructor
    · rintro rfl
      rfl
    · intro hreveal
      exact h.joint.sound.reveal_inj hr (hreveal.symm.trans hr)

end

/-- A run succeeds throughout if that on the bare engine does. -/
theorem Agrees.isOk {S F : Type} [LayeredFactory S F]
    {run : List (Except StepError Answer) × Session S F}
    {bare : List (Except StepError Answer) × Session (Metered Engine) RationalFunction}
    (h : Agrees run bare) (hbare : bare.1.all Except.isOk = true) :
    ∀ a ∈ run.1, a.isOk = true := by
  intro a ha
  have hmem : a.map Answer.withoutHandles ∈ bare.1 := h.answers ▸ List.mem_map_of_mem ha
  have hok := List.all_eq_true.mp hbare _ hmem
  cases a with
  | ok a => rfl
  | error e => exact hok

namespace Session

section

variable {S F : Type} [LayeredFactory S F] [BEq F] [LawfulBEq F] [Hashable F] [Erasable S]
variable [Transparent S F]

/-- A new cache belongs to the engine inside. -/
theorem joint_toEngine (memoOn : Bool) {s : S} {m : Metered Engine} (hs : Sound s) (hw : Willing s)
    (hm : Willing m) (hparameters : FunctionFactory.parameters s = FunctionFactory.parameters m) :
    (Link.toEngine S).Joint (Cache.ofContext memoOn s) m where
  states := (Cache.parameters_ofContext memoOn hs).trans hparameters
  sound := Cache.faithful_ofContext memoOn hs
  sound' := trivial
  willing := Cache.willing_ofContext memoOn hs hw
  willing' := hm

/-- A cache around any transparent layers agrees with the engine. -/
theorem agrees_runScheduled {c : Cache S F} {m : Metered Engine}
    (h : (Link.toEngine S).Joint c m) {program : List Scheduled}
    (hprogram : ∀ first ∈ program, first.step.Common (engine c).numVars) :
    Agrees ((start c).runScheduled program)
      ((start m).run (program.map Scheduled.step)) := by
  -- the engine has no switches to throw
  rw [← runScheduled_of_no_switches]
  have hkeeps (first : Scheduled) (hfirst : first ∈ program) :
      (Link.toEngine S).Keeps (engine c).numVars first.step := by
    intro s s' made made' hs hn hmade
    refine Link.coupled_perform hs hmade ?_
    rw [hn]
    exact hprogram first hfirst
  have hsteps : program.map Scheduled.step =
      ((program.map Scheduled.step).map fun step => ⟨[], step⟩).map Scheduled.step := by simp
  obtain ⟨hanswers, hend⟩ := (Link.together_start h).runScheduled rfl hkeeps hsteps
  exact agrees_of_together hanswers hend

end

/-- **Caches cannot be noticed.** A program of steps over the parameters of an engine does the same
on the engine, on a cache around it and on a cache around a cache, whether memos are on or off at
first and however they are switched in between. -/
theorem caches_agree (e : Engine) (outerOn innerOn : Bool) (program : List Scheduled)
    (hprogram : ∀ first ∈ program, first.step.Common e.numVars) :
    Agrees ((cached e outerOn).runScheduled program)
        ((bare e).run (program.map Scheduled.step)) ∧
      Agrees ((twiceCached e outerOn innerOn).runScheduled program)
        ((bare e).run (program.map Scheduled.step)) := by
  have hbare := Metered.willing_ofContext e
  have honce := joint_toEngine outerOn (s := Metered.ofContext e) trivial hbare hbare rfl
  have hinner : Sound (Cache.ofContext innerOn (Metered.ofContext e)) :=
    Cache.faithful_ofContext innerOn trivial
  have htwice := joint_toEngine outerOn hinner (Cache.willing_ofContext innerOn trivial hbare) hbare
    (Cache.parameters_ofContext innerOn trivial)
  refine ⟨agrees_runScheduled honce ?_, agrees_runScheduled htwice ?_⟩
  -- the parameters of a cache are those of the engine
  · rw [honce.engine_eq]
    exact hprogram
  · rw [htwice.engine_eq]
    exact hprogram

/-- Sums in both orders, with memos switched off for the first one. -/
theorem caches_agree_on_sums :
    let program : List Scheduled := [⟨[], .polynomial (.one 2)⟩, ⟨[], .apply (.parameter 0)⟩,
      ⟨[(0, false)], .apply (.add 0 1)⟩, ⟨[(0, true)], .apply (.add 1 0)⟩, ⟨[], .equal 2 3⟩]
    Agrees ((cached (.ofNames ["x", "y"]) true).runScheduled program)
        ((bare (.ofNames ["x", "y"])).run (program.map Scheduled.step)) ∧
      Agrees ((twiceCached (.ofNames ["x", "y"]) true false).runScheduled program)
        ((bare (.ofNames ["x", "y"])).run (program.map Scheduled.step)) :=
  caches_agree (.ofNames ["x", "y"]) true false _ (by decide)

end Session

end FunctionCache
