import FunctionCache.Program
import FunctionCache.Proofs.Computation

/-!
# What a step can change

A step changes the state of a factory by a few changes only: it makes a constant
or a result, stores a function, or throws a switch. Steps that look at functions
change nothing.

* `Leaves` — computations that leave a property of the state alone, with a rule
  for each way to put them together;
* `Leaves.looks` — steps that look leave every property alone;
* `Persistent`, `Stable` — a property that no change but a switch or an operation
  can end, or none but an operation;
* `Leaves.perform` — such a property outlives every step, if operations keep it.
-/

namespace FunctionCache

open LayeredFactory

/-- A computation leaves a property of the state alone. -/
def Leaves {ε S α : Type} (P : S → Prop) (act : ExceptT ε (StateM S) α) : Prop :=
  ∀ s, P s → P (act.run s).2

namespace Leaves

variable {ε S α β : Type} {P : S → Prop}

theorem pure (a : α) : Leaves P (Pure.pure a : ExceptT ε (StateM S) α) := fun _ hs => hs

/-- Computations in sequence leave the property alone if each of them does. -/
theorem bind {act : ExceptT ε (StateM S) α} {next : α → ExceptT ε (StateM S) β}
    (hact : Leaves P act) (hnext : ∀ a, Leaves P (next a)) : Leaves P (act >>= next) := by
  intro s hs
  have h := hact s hs
  rw [Stateful.run_bind]
  rcases hrun : act.run s with ⟨e | a, t⟩
  · rw [hrun] at h
    exact h
  · rw [hrun] at h
    exact hnext a t h

theorem get : Leaves P (MonadState.get : ExceptT ε (StateM S) S) := fun _ hs => hs

theorem look (f : S → Except Failure α) : Leaves P (StepAction.ofState f) := fun _ hs => hs

theorem ofOption (e : StepError) (x : Option α) : Leaves P (StepAction.ofOption (S := S) e x) := by
  intro s hs
  cases x <;> exact hs

theorem ofAction {act : Action S α} (h : Leaves P act) : Leaves P (StepAction.ofAction act) :=
  fun s hs => h s hs

theorem mapM {f : α → ExceptT ε (StateM S) β} (h : ∀ a, Leaves P (f a)) (l : List α) :
    Leaves P (l.mapM f) := by
  induction l with
  | nil => exact .pure _
  | cons a l ih =>
    rw [List.mapM_cons]
    exact .bind (h a) fun _ => .bind ih fun _ => .pure _

/-- Reporting on a function changes nothing. -/
theorem making {F : Type} [LayeredFactory S F] {act : StepAction S F} (h : Leaves P act) :
    Leaves P (Step.making act) :=
  .bind h fun f => .bind (.look (Step.report f)) fun _ => .pure _

end Leaves

/-! ## Steps that look -/

/-- The steps that neither make a function nor throw a switch. -/
def Step.Looks : Step → Prop
  | constant _ | apply _ | polynomial _ | fraction _ _ | renew _ | setMemo _ _ | setFailing _ _ =>
    False
  | _ => True

section

variable {S F : Type} {P : S → Prop} {made : Array (Option F)}

theorem Leaves.operand (a : Nat) : Leaves P (Step.operand made a : StepAction S F) := .ofOption _ _

/-- The function that the step with this number made, if it made one. -/
def Step.found (made : Array (Option F)) (a : Nat) : Except StepError F :=
  match made[a]?.join with
  | some f => .ok f
  | none => .error .badReference

/-- What an operand refers to is one of the functions made. -/
theorem Step.mem_of_found {a : Nat} {f : F} (h : found made a = .ok f) : some f ∈ made := by
  unfold found at h
  split at h
  · rename_i f' hjoin
    cases h
    exact Array.mem_of_getElem? (Option.join_eq_some_iff.mp hjoin)
  · cases h

/-- An operand is found among the earlier steps, whatever the state. -/
theorem Step.run_operand (made : Array (Option F)) (a : Nat) (s : S) :
    (operand made a).run s = (found made a, s) := by
  unfold operand found
  cases made[a]?.join <;> rfl

/-- Operands are looked up without a change of the state. -/
theorem Step.run_operands (made : Array (Option F)) (op : Operation Nat) (s : S) :
    (op.mapM (operand made)).run s = (op.mapM (found made), s) :=
  Operation.run_mapM (fun a => run_operand made a s) op

/-- Looking operands up changes nothing. -/
theorem Step.snd_operands (made : Array (Option F)) (op : Operation Nat) (s : S) :
    ((op.mapM (operand made)).run s).2 = s := by
  rw [run_operands]

variable [LayeredFactory S F] [BEq F]

/-- **Steps that look** leave everything as it is. -/
theorem Leaves.looks {step : Step} (hstep : step.Looks) :
    Leaves P (step.perform made : StepAction S _) := by
  cases step with
  | foreign h => exact .bind .get fun _ => .bind (.ofOption _ _) fun _ => .pure _
  | find p q =>
    refine .bind (.look _) fun r => .bind .get fun s => ?_
    -- what is found is looked at once more
    cases find? r s with
    | none => exact .pure _
    | some f => exact .bind (.look _) fun _ => .pure _
  | evaluate a point cancel =>
    refine .bind (.operand a) fun f => ?_
    cases cancel with
    | true => exact .bind (.look _) fun _ => .pure _
    | false => exact .bind (.look _) fun _ => .pure _
  | constantValue a => exact .bind (.operand a) fun _ => .bind (.look _) fun _ => .pure _
  | check a point strict => exact .bind (.operand a) fun _ => .bind (.look _) fun _ => .pure _
  | properties a =>
    refine .bind (.operand a) fun _ => .bind (.mapM (fun p => ?_) _) fun _ => .pure _
    exact .bind (.look _) fun _ => .pure _
  | reveal a => exact .bind (.operand a) fun _ => .bind (.look _) fun _ => .pure _
  | equal a b => exact .bind (.operand a) fun _ => .bind (.operand b) fun _ => .pure _
  | statistics => exact .bind .get fun _ => .pure _
  | parameters => exact .bind .get fun _ => .pure _
  | constant | apply | polynomial | fraction | renew | setMemo | setFailing => exact hstep.elim

/-! ## Steps that change something -/

/-- What an operation leaves is what it leaves without its report. -/
theorem Session.snd_perform_apply (made : Array (Option F)) (op : Operation Nat) (s : S) :
    (((Step.apply op).perform made).run s).2 =
      match (op.mapM (Step.operand made)).run s with
      | (.ok op, s) => ((FunctionFactory.apply op).run s).2
      | (.error _, s) => s := by
  -- reporting on the new function does not change the state
  have hmaking (act : StepAction S F) : ((Step.making act).run s).2 = (act.run s).2 := by
    rw [Step.making, Stateful.run_bind]
    rcases act.run s with ⟨e | f, t⟩
    · rfl
    · exact Leaves.bind (P := (· = t)) (.look _) (fun _ => .pure _) t rfl
  rw [Step.perform, hmaking, Stateful.run_bind]
  rcases (op.mapM (Step.operand made)).run s with ⟨e | op', t⟩ <;> rfl

/-- A switch is thrown if there is a cache at its depth, and otherwise the step fails. -/
theorem Session.run_setMemo (made : Array (Option F)) (depth : Nat) (on : Bool) (s : S) :
    ((Step.setMemo depth on).perform made).run s = match setMemoOn? depth on s with
      | some t => (.ok (none, .done), t)
      | none => (.error .noSuchLayer, s) := by
  refine (Stateful.run_bind_of_ok (Stateful.run_get s)).trans ?_
  cases setMemoOn? depth on s <;> rfl

/-- A property of states that storing functions keeps. -/
structure Persistent (P : S → Prop) : Prop where
  constant (c : Constant) {s : S} : P s → P (FunctionFactory.constant c s).2
  embed (r : RationalFunction) {s : S} : P s → P (embed r s).2
  renew (f : F) {s : S} : P s → P ((renew f).run s).2
  setFailing (op : Memoized) (on : Bool) {s : S} : P s → P (setFailing op on s)

/-- A property of states that is kept by every change other than an operation. -/
structure Stable (P : S → Prop) : Prop extends Persistent P where
  setMemoOn? {depth : Nat} {on : Bool} {s t : S} : setMemoOn? depth on s = some t → P s → P t

/-- **Every step** keeps a persistent property, unless it is an operation or a switch that does
not. -/
theorem Leaves.perform_of_persistent (hP : Persistent P) {step : Step}
    (happly : ∀ op, step = .apply op →
      ∀ op' : Operation F, Leaves P (FunctionFactory.apply op' : Action S F))
    (hswitch : ∀ depth on, step = .setMemo depth on →
      ∀ s t, setMemoOn? depth on s = some t → P s → P t) :
    Leaves P (step.perform made : StepAction S _) := by
  by_cases hlooks : step.Looks
  · exact .looks hlooks
  · cases step with
    | apply op =>
      -- the operands change nothing, and the operation may
      refine .making (.bind (fun s hs => ?_) fun op' => .ofAction (happly op rfl op'))
      rw [Step.snd_operands]
      exact hs
    | constant c => exact .making (.ofAction fun _ hs => hP.constant c hs)
    | polynomial p => exact .making (.bind .get fun _ => .ofAction fun _ hs => hP.embed _ hs)
    | fraction p q => exact .making (.bind (.look _) fun r => .ofAction fun _ hs => hP.embed r hs)
    | renew a => exact .making (.bind (.operand a) fun f => .ofAction fun _ hs => hP.renew f hs)
    | setMemo depth on =>
      intro s hs
      rw [Session.run_setMemo]
      cases ht : setMemoOn? depth on s with
      | none => exact hs
      | some t => exact hswitch depth on rfl s t ht hs
    | setFailing op on => exact .bind (fun _ hs => hP.setFailing op on hs) fun _ => .pure _
    | foreign | find | evaluate | constantValue | check | properties | reveal | equal | statistics
      | parameters => exact absurd trivial hlooks

/-- **Every step** keeps a stable property, if it is no operation or operations keep it. -/
theorem Leaves.perform (hP : Stable P) {step : Step}
    (happly : ∀ op, step = .apply op →
      ∀ op' : Operation F, Leaves P (FunctionFactory.apply op' : Action S F)) :
    Leaves P (step.perform made : StepAction S _) :=
  .perform_of_persistent hP.toPersistent happly fun _ _ _ _ _ => hP.setMemoOn?

/-! ## Steps of a session -/

/-- A step leaves the same state whether it succeeds or fails. -/
theorem Session.factory_step (s : Session S F) (step : Step) :
    (s.step step).2.factory = ((step.perform s.made).run s.factory).2 := by
  unfold Session.step
  rcases (step.perform s.made).run s.factory with ⟨_ | ⟨_, _⟩, _⟩ <;> rfl

/-- What the steps of a program keep, a run keeps. -/
theorem Session.invariant_run {steps : List Step} {s : Session S F}
    (hsteps : ∀ step ∈ steps, ∀ made, Leaves P (step.perform made : StepAction S _))
    (hs : P s.factory) : P (s.run steps).2.factory := by
  induction steps generalizing s with
  | nil => exact hs
  | cons first rest ih =>
    have hfirst : P (s.step first).2.factory := by
      rw [factory_step]
      exact hsteps first List.mem_cons_self _ _ hs
    exact ih (fun step hstep => hsteps step (List.mem_cons_of_mem _ hstep)) hfirst

end

end FunctionCache
