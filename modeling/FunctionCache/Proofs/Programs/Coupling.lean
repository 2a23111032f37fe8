import FunctionCache.Program
import FunctionCache.Proofs.Layers.Transparent

/-!
# Two stacks side by side

Two stacks of layers that perform the same step stay together. What together
means differs: a cache and the bare engine agree on what functions stand for,
two caches with other settings agree on the handles. `Link` lists what either
meaning has to satisfy; the rest follows from transparency.

* `Link` — states, functions and answers that belong together;
* `Link.Coupled` — outcomes that fail alike, or succeed with results that belong
  together, and leave states that do;
* `Link.Coupled.bind` — computations in sequence;
* `Link.coupled_apply` — operations on operands that belong together.
-/

namespace FunctionCache

open LayeredFactory Erasable Storage Transparent

/-- States, functions and answers of two stacks that belong together. -/
structure Link (S S' : Type) {F F' : Type} [LayeredFactory S F] [LayeredFactory S' F']
    [Erasable S] [Erasable S'] [BEq F] [BEq F'] where
  -- the meaning: what belongs together
  States : S → S' → Prop
  Functions : S → S' → F → F' → Prop
  Answers : Answer → Answer → Prop
  -- states in time
  parameters_eq {s : S} {s' : S'} : States s s' →
    FunctionFactory.parameters s = FunctionFactory.parameters s'
  states_of_erase_eq {s t : S} {s' t' : S'} :
    erase s = erase t → erase s' = erase t' → States s s' → States t t'
  functions_of_extends {s t : S} {s' t' : S'} {f : F} {f' : F'} :
    Extends s t → Extends s' t' → Functions s s' f f' → Functions t t' f f'
  -- functions, as far as a step can see them
  reveal_eq {s : S} {s' : S'} {f : F} {f' : F'} :
    States s s' → Functions s s' f f' → reveal f s = reveal f' s'
  inParameters {s : S} {s' : S'} {f : F} {f' : F'} {r : RationalFunction} : Sound s → Sound s' →
    Functions s s' f f' → reveal f s = .ok r → r.InParameters (engine s).numVars
  beq_eq {s : S} {s' : S'} {f g : F} {f' g' : F'} : Sound s → Sound s' → States s s' →
    Functions s s' f f' → Functions s s' g g' → (f == g) = (f' == g')
  -- storing the same function on both sides
  states_embed {s : S} {s' : S'} (r : RationalFunction) : States s s' →
    States (embed r s).2 (embed r s').2
  functions_embed {s : S} {s' : S'} (r : RationalFunction) : States s s' →
    Functions (embed r s).2 (embed r s').2 (embed r s).1 (embed r s').1
  -- answers
  answers_function {s : S} {s' : S'} {f : F} {f' : F'} {hs hs' : List Handle} (text : String) :
    States s s' → Functions s s' f f' → handles f s = .ok hs → handles f' s' = .ok hs' →
    Answers (.function text hs (sizes s)) (.function text hs' (sizes s'))
  answers_self {a : Answer} : (∀ text hs ns, a ≠ .function text hs ns) → Answers a a

namespace Link

variable {S S' F F' : Type} [LayeredFactory S F] [LayeredFactory S' F'] [Erasable S] [Erasable S']
variable [BEq F] [BEq F'] (L : Link S S')

/-- States that belong together, remember the truth and refuse nothing. -/
structure Joint (s : S) (s' : S') : Prop where
  states : L.States s s'
  sound : Sound s
  sound' : Sound s'
  willing : Willing s
  willing' : Willing s'

/-- Outcomes of computations that started in `s` and `s'`: both fail with the same error, or both
succeed with results in `Q`, and the states still belong together. -/
inductive Coupled {ε α β : Type} (Q : S → S' → α → β → Prop) (s : S) (s' : S') :
    Except ε α × S → Except ε β × S' → Prop
  | ok {a : α} {b : β} {t : S} {t' : S'} (joint : L.Joint t t') (later : Extends s t)
    (later' : Extends s' t') (result : Q t t' a b) : Coupled Q s s' (.ok a, t) (.ok b, t')
  | error {e : ε} {t : S} {t' : S'} (joint : L.Joint t t') (later : Extends s t)
    (later' : Extends s' t') : Coupled Q s s' (.error e, t) (.error e, t')

namespace Coupled

variable {L} {ε α β γ δ : Type} {s : S} {s' : S'}

/-! ## Rules -/

/-- Results that belong together, without a computation. -/
theorem pure {Q : S → S' → α → β → Prop} {a : α} {b : β} (hs : L.Joint s s') (h : Q s s' a b) :
    L.Coupled Q s s' ((Pure.pure a : ExceptT ε (StateM S) α).run s)
      ((Pure.pure b : ExceptT ε (StateM S') β).run s') :=
  .ok hs (.refl s) (.refl s') h

/-- Outcomes that are coupled later are coupled now. -/
theorem after {Q : S → S' → α → β → Prop} {t : S} {t' : S'} {x : Except ε α × S}
    {y : Except ε β × S'} (h : L.Coupled Q t t' x y) (later : Extends s t)
    (later' : Extends s' t') : L.Coupled Q s s' x y := by
  cases h with
  | ok joint later₁ later₁' result =>
    exact .ok joint (later.trans later₁) (later'.trans later₁') result
  | error joint later₁ later₁' =>
    exact .error joint (later.trans later₁) (later'.trans later₁')

/-- **Computations in sequence** are coupled if the first ones are, and the second ones after any
results of the first. -/
theorem bind {Q : S → S' → α → β → Prop} {P : S → S' → γ → δ → Prop}
    {x : ExceptT ε (StateM S) α} {y : ExceptT ε (StateM S') β}
    {f : α → ExceptT ε (StateM S) γ} {g : β → ExceptT ε (StateM S') δ}
    (hxy : L.Coupled Q s s' (x.run s) (y.run s'))
    (hfg : ∀ t t' a b, L.Joint t t' → Extends s t → Extends s' t' → Q t t' a b →
      L.Coupled P t t' ((f a).run t) ((g b).run t')) :
    L.Coupled P s s' ((x >>= f).run s) ((y >>= g).run s') := by
  rw [Stateful.run_bind, Stateful.run_bind]
  rcases hx : x.run s with ⟨_ | a, t⟩ <;> rcases hy : y.run s' with ⟨_ | b, t'⟩ <;>
    rw [hx, hy] at hxy
  · -- both fail, and the second ones are not run
    cases hxy with
    | error joint later later' => exact .error joint later later'
  -- one fails and the other does not
  · cases hxy
  · cases hxy
  · -- both succeed
    cases hxy with
    | ok joint later later' result =>
      exact (hfg t t' a b joint later later' result).after later later'

/-- A look that finds the same on both sides. -/
theorem look {look : S → Except Failure α} {look' : S' → Except Failure α} (hs : L.Joint s s')
    (h : look s = look' s') :
    L.Coupled (fun _ _ => Eq) s s' ((StepAction.ofState look).run s)
      ((StepAction.ofState look').run s') := by
  show L.Coupled _ s s' ((look s).mapError _, s) ((look' s').mapError _, s')
  rw [h]
  cases look' s' with
  | ok a => exact .ok hs (.refl s) (.refl s') rfl
  | error e => exact .error hs (.refl s) (.refl s')

/-- Each side gets its own state. -/
theorem get (hs : L.Joint s s') :
    L.Coupled (fun t t' a b => a = t ∧ b = t') s s'
      ((MonadState.get : ExceptT ε (StateM S) S).run s)
      ((MonadState.get : ExceptT ε (StateM S') S').run s') :=
  .ok hs (.refl s) (.refl s') ⟨rfl, rfl⟩

/-- Computations for each element of a list, with equal results. -/
theorem mapM {f : γ → ExceptT ε (StateM S) α} {g : γ → ExceptT ε (StateM S') α}
    (hfg : ∀ c t t', L.Joint t t' → Extends s t → Extends s' t' →
      L.Coupled (fun _ _ => Eq) t t' ((f c).run t) ((g c).run t'))
    (l : List γ) (hs : L.Joint s s') :
    L.Coupled (fun _ _ => Eq) s s' ((l.mapM f).run s) ((l.mapM g).run s') := by
  induction l generalizing s s' with
  | nil => exact .pure hs rfl
  | cons c l ih =>
    rw [List.mapM_cons, List.mapM_cons]
    refine .bind (hfg c s s' hs (.refl s) (.refl s')) fun t t' a b ht later later' hab => ?_
    -- later states are later for all elements that are left
    have hrest := ih (fun c u u' hu hlater hlater' =>
      hfg c u u' hu (later.trans hlater) (later'.trans hlater')) ht
    refine .bind hrest fun u u' as bs hu _ _ habs => ?_
    rw [hab, habs]
    exact .pure hu rfl

/-- Steps are coupled if their actions are. -/
theorem ofAction {Q : S → S' → α → β → Prop} {x : Action S α} {y : Action S' β}
    (h : L.Coupled Q s s' (x.run s) (y.run s')) :
    L.Coupled Q s s' ((StepAction.ofAction x).run s) ((StepAction.ofAction y).run s') := by
  show L.Coupled Q s s' ((x.run s).1.mapError _, (x.run s).2)
    ((y.run s').1.mapError _, (y.run s').2)
  rcases hx : x.run s with ⟨_ | a, t⟩ <;> rcases hy : y.run s' with ⟨_ | b, t'⟩ <;>
    rw [hx, hy] at h
  · cases h with
    | error joint later later' => exact .error joint later later'
  · cases h
  · cases h
  · cases h with
    | ok joint later later' result => exact .ok joint later later' result

end Coupled

/-! ## Operations on functions that belong together -/

variable {L} {s : S} {s' : S'}

theorem Joint.engine_eq (hs : L.Joint s s') : engine s = engine s' :=
  congrArg Engine.mk (L.parameters_eq hs.states)

/-- States that look like states that belong together do so too. -/
theorem Joint.of_erase_eq [Storage S F] [Storage S' F'] (hs : L.Joint s s') {t : S} {t' : S'}
    (ht : erase s = erase t) (ht' : erase s' = erase t') (hsound : Sound t) (hsound' : Sound t') :
    L.Joint t t' where
  states := L.states_of_erase_eq ht ht' hs.states
  sound := hsound
  sound' := hsound'
  willing := willing_of_erase_eq ht hs.willing
  willing' := willing_of_erase_eq ht' hs.willing'

variable [Transparent S F] [Transparent S' F']

/-- **Storing the same function** on both sides gives functions that belong together. -/
theorem coupled_embed (hs : L.Joint s s') {r : RationalFunction}
    (hr : r.InParameters (engine s).numVars) :
    L.Coupled (ε := Failure) L.Functions s s' ((Action.ofState (embed r)).run s)
      ((Action.ofState (embed r)).run s') := by
  have hr' := hr
  rw [hs.engine_eq] at hr'
  exact .ok ⟨L.states_embed r hs.states, sound_embed hs.sound hr, sound_embed hs.sound' hr',
    willing_embed r hs.willing, willing_embed r hs.willing'⟩
    (.of_embed r s) (.of_embed r s') (L.functions_embed r hs.states)

/-- Constants are functions of the parameters, and making them is storing them. -/
theorem coupled_constant (hs : L.Joint s s') (c : Constant) :
    L.Coupled (ε := Failure) L.Functions s s' ((Action.ofState (FunctionFactory.constant c)).run s)
      ((Action.ofState (FunctionFactory.constant c)).run s') := by
  rw [Stateful.run_ofState, Stateful.run_ofState, constant_eq c hs.sound, constant_eq c hs.sound',
    ← hs.engine_eq]
  exact coupled_embed hs (Engine.inParameters_constant _ c)

/-- A function is stored already on both sides, or cannot be revealed on either. -/
theorem coupled_renew (hs : L.Joint s s') {f : F} {f' : F'} (hf : L.Functions s s' f f') :
    L.Coupled L.Functions s s' ((renew f).run s) ((renew f').run s') := by
  rw [renew_eq f hs.sound, renew_eq f' hs.sound', L.reveal_eq hs.states hf]
  cases reveal f' s' with
  | error e => exact .error hs (.refl s) (.refl s')
  | ok r => exact .ok hs (.refl s) (.refl s') hf

/-- Outcomes that look like coupled ones are coupled. -/
theorem Coupled.of_alike {x y : Except Failure F × S} {x' y' : Except Failure F' × S'}
    (h : L.Coupled L.Functions s s' x x') (hy : Alike y x) (hy' : Alike y' x')
    (hsound : Sound y.2) (hsound' : Sound y'.2) : L.Coupled L.Functions s s' y y' := by
  rcases y with ⟨result, t⟩
  rcases y' with ⟨result', t'⟩
  obtain ⟨hresult, ht⟩ := hy
  obtain ⟨hresult', ht'⟩ := hy'
  cases h with
  | error joint later later' =>
    cases hresult
    cases hresult'
    exact .error (joint.of_erase_eq ht.symm ht'.symm hsound hsound')
      (later.trans (.of_erase_eq ht.symm)) (later'.trans (.of_erase_eq ht'.symm))
  | ok joint later later' result =>
    cases hresult
    cases hresult'
    exact .ok (joint.of_erase_eq ht.symm ht'.symm hsound hsound')
      (later.trans (.of_erase_eq ht.symm)) (later'.trans (.of_erase_eq ht'.symm))
      (L.functions_of_extends (.of_erase_eq ht.symm) (.of_erase_eq ht'.symm) result)

/-- The references of an operation on operands that belong together. -/
theorem coupled_reference (hs : L.Joint s s') {op : Operation (F × F')}
    (hop : ∀ p ∈ op.operands, L.Functions s s' p.1 p.2) :
    L.Coupled L.Functions s s' (reference (op.map Prod.fst) s)
      (reference (op.map Prod.snd) s') := by
  -- the operands stand for the same functions on both sides
  have hcomputed : computed (op.map Prod.fst) s = computed (op.map Prod.snd) s' := by
    have hreveal : op.mapM (fun p => reveal p.1 s) = op.mapM (fun p => reveal p.2 s') :=
      Operation.mapM_congr fun p hp => L.reveal_eq hs.states (hop p hp)
    unfold computed
    rw [Operation.mapM_map, Operation.mapM_map, hreveal, hs.engine_eq]
  unfold reference
  rw [← hcomputed]
  cases hr : computed (op.map Prod.fst) s with
  | error e => exact .error hs (.refl s) (.refl s')
  | ok r =>
    -- the same result is stored on both sides
    refine coupled_embed hs (inParameters_of_computed hr fun f hf a ha => ?_)
    rw [Operation.operands_map] at hf
    obtain ⟨p, hp, rfl⟩ := List.mem_map.mp hf
    exact L.inParameters hs.sound hs.sound' (hop p hp) ha

/-- **An operation** on operands that belong together: a difference is a negation and a sum, and
everything else does what its reference does. -/
theorem coupled_apply (hs : L.Joint s s') {op : Operation (F × F')}
    (hop : ∀ p ∈ op.operands, L.Functions s s' p.1 p.2) :
    L.Coupled L.Functions s s' ((FunctionFactory.apply (op.map Prod.fst)).run s)
      ((FunctionFactory.apply (op.map Prod.snd)).run s') := by
  -- any operation but the difference
  have hplain {t : S} {t' : S'} (ht : L.Joint t t') (op : Operation (F × F'))
      (hop : ∀ p ∈ op.operands, L.Functions t t' p.1 p.2) (hsub : ∀ a b, op ≠ .subtract a b) :
      L.Coupled L.Functions t t' ((FunctionFactory.apply (op.map Prod.fst)).run t)
        ((FunctionFactory.apply (op.map Prod.snd)).run t') := by
    have href := coupled_reference ht hop
    refine href.of_alike ?_ ?_ (sound_apply _ ht.sound) (sound_apply _ ht.sound')
    · exact (settles_apply ht.sound (Operation.map_ne_subtract hsub)).alike ht.willing
    · exact (settles_apply ht.sound' (Operation.map_ne_subtract hsub)).alike ht.willing'
  by_cases hsub : ∃ a b, op = .subtract a b
  · obtain ⟨a, b, rfl⟩ := hsub
    refine Coupled.of_alike ?_ (apply_subtract _ _ hs.sound hs.willing)
      (apply_subtract _ _ hs.sound' hs.willing') (sound_apply _ hs.sound) (sound_apply _ hs.sound')
    -- a negation, and a sum on the states after it
    refine Coupled.bind (hplain hs (.negate b) ?_ (by simp)) fun t t' f f' ht hlater hlater' hf =>
      hplain ht (.add a (f, f')) ?_ (by simp)
    · intro p hp
      exact hop p (by simp_all [Operation.operands])
    · intro p hp
      simp only [Operation.operands, List.mem_cons, List.not_mem_nil, or_false] at hp
      rcases hp with rfl | rfl
      · exact L.functions_of_extends hlater hlater' (hop _ (by simp [Operation.operands]))
      · exact hf
  · exact hplain hs op hop fun a b h => hsub ⟨a, b, h⟩

end Link

end FunctionCache
