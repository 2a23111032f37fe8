import FunctionCache.Proofs.Layers.Closed
import FunctionCache.Proofs.Layers.Spent
import FunctionCache.Proofs.Programs.Scheduled
import FunctionCache.Proofs.Programs.Steps

/-!
# Failures leave nothing

A step that fails, or breaks off, leaves a spent state: tables and memos are as
before, and no later step can tell the difference. So the steps that fail can be
taken out of a program, and the others still do the same. A difference is the
exception, since it may have stored its negated second operand.

* `LeavesNothing` — what may be left behind by one operation;
* `Session.kept` — a program without the steps that fail in a run of it;
* `Session.WithoutFailures` — the run of that program;
* `Session.failures_leave_nothing` — the result, for one cache and for two.
-/

namespace FunctionCache

open LayeredFactory Counting Closable Storage

/-! ## Steps in a spent state -/

namespace Counting.Blind

variable {ε S α β : Type} [Counting S]

/-- A look that does not depend on the counts. -/
theorem look {look : S → Except Failure α} (h : ∀ s t, Spent s t → look t = look s) :
    Blind (StepAction.ofState look) := by
  intro s t hst
  refine ⟨?_, hst⟩
  show (look t).mapError _ = (look s).mapError _
  rw [h s t hst]

theorem ofOption (e : StepError) (x : Option α) : Blind (StepAction.ofOption (S := S) e x) := by
  intro s t hst
  cases x <;> exact ⟨rfl, hst⟩

/-- A step fails with the failure of its action. -/
theorem ofAction {act : Action S α} (h : Blind act) : Blind (StepAction.ofAction act) := by
  intro s t hst
  obtain ⟨hresult, hstate⟩ := h s t hst
  refine ⟨?_, hstate⟩
  show (act.run t).1.mapError _ = (act.run s).1.mapError _
  rw [hresult]

/-- Computations for each element of a list, one after the other. -/
theorem mapM {act : α → ExceptT ε (StateM S) β} (h : ∀ a, Blind (act a)) (l : List α) :
    Blind (l.mapM act) := by
  induction l with
  | nil => exact .pure _
  | cons a l ih =>
    rw [List.mapM_cons]
    exact .bind (h a) fun _ => .bind ih fun _ => .pure _

/-- A computation may look at the state if what follows does not depend on the counts. -/
theorem get_bind {next : S → ExceptT ε (StateM S) β}
    (h : ∀ s t, Spent s t → Beside ((next s).run s) ((next t).run t)) :
    Blind (MonadState.get >>= next) := by
  intro s t hst
  rw [Stateful.run_bind, Stateful.run_bind]
  exact h s t hst

end Counting.Blind

section

variable {S F : Type} [Counting S] {made : Array (Option F)}

theorem blind_operand (a : Nat) : Blind (Step.operand made a : StepAction S F) := .ofOption _ _

/-- Operands are looked up among earlier steps, not in the state. -/
theorem blind_operands (op : Operation Nat) :
    Blind (op.mapM (Step.operand made) : StepAction S (Operation F)) := by
  cases op with
  | parameter i => exact .pure _
  | add a b | subtract a b | multiply a b | divide a b =>
    exact .bind (blind_operand a) fun _ => .bind (blind_operand b) fun _ => .pure _
  | negate a | star a | constraint a => exact .bind (blind_operand a) fun _ => .pure _

variable [LayeredFactory S F] [Frugal S F]

/-- Reports show sizes and handles, but neither misses nor calls. -/
theorem blind_report (f : F) :
    Blind (StepAction.ofState (Step.report f) : StepAction S Answer) := by
  refine .look fun s t hst => ?_
  have hnames : FunctionFactory.names t = FunctionFactory.names s :=
    congrArg (List.map Parameter.name) (Frugal.parameters_eq hst)
  -- sizes are among what reports without misses still show
  have hsizes : ((reports t).map fun r => r.2.functions) =
      (reports s).map fun r => r.2.functions := by
    have hreports := congrArg (List.map fun r => r.2.functions) (Frugal.reports_eq hst)
    simpa only [List.map_map, Function.comp_def, Statistics.withoutMisses] using hreports
  unfold Step.report format
  rw [Frugal.reveal_eq f hst, Frugal.handles_eq f hst, hnames, hsizes]

theorem blind_making {act : StepAction S F} (h : Blind act) : Blind (Step.making act) :=
  .bind h fun f => .bind (blind_report f) fun _ => .pure _

theorem blind_asking {α : Type} (q : Query α) (f : F) :
    Blind (Step.asking q f : StepAction S α) :=
  .look fun _ _ => Frugal.ask_eq q f

variable [BEq F]

/-- **A step** does the same in a spent state, unless it asks for the counts. -/
theorem blind_perform {step : Step} (hstep : step ≠ .statistics) :
    Blind (step.perform made : StepAction S _) := by
  cases step with
  | statistics => exact absurd rfl hstep
  -- steps that make a function
  | constant c => exact blind_making (.ofAction (Frugal.blind_constant c))
  | apply op =>
    exact blind_making (.bind (blind_operands op) fun op' => .ofAction (Frugal.blind_apply op'))
  -- the number of parameters is read off the state
  | polynomial p =>
    refine blind_making (.get_bind fun s t hst => ?_)
    have hnum : FunctionFactory.numVariables t = FunctionFactory.numVariables s :=
      congrArg List.length (Frugal.parameters_eq hst)
    rw [hnum]
    exact Blind.ofAction (Frugal.blind_embed _) s t hst
  | fraction p q =>
    refine blind_making (.bind (.look fun _ _ _ => rfl) fun r => ?_)
    exact .ofAction (Frugal.blind_embed r)
  | renew a =>
    exact blind_making (.bind (blind_operand a) fun f => .ofAction (Frugal.blind_renew f))
  -- steps that look
  | foreign h =>
    refine .get_bind fun s t hst => ?_
    rw [Frugal.ofHandle?_eq h hst]
    exact Blind.bind (.ofOption _ _) (fun _ => .pure _) s t hst
  | find p q =>
    refine .bind (.look fun _ _ _ => rfl) fun r => .get_bind fun s t hst => ?_
    -- what is found is the same, and has the same handles
    rw [Frugal.find?_eq r hst]
    cases find? r s with
    | none => exact ⟨rfl, hst⟩
    | some f =>
      refine Blind.bind (.look fun s t hst => ?_) (fun _ => .pure _) s t hst
      rw [Frugal.handles_eq f hst]
  | evaluate a point cancel =>
    refine .bind (blind_operand a) fun f => ?_
    cases cancel with
    | true => exact .bind (blind_asking _ f) fun _ => .pure _
    | false => exact .bind (blind_asking _ f) fun _ => .pure _
  | constantValue a =>
    exact .bind (blind_operand a) fun f => .bind (blind_asking _ f) fun _ => .pure _
  | check a point strict =>
    exact .bind (blind_operand a) fun f => .bind (blind_asking _ f) fun _ => .pure _
  | properties a =>
    refine .bind (blind_operand a) fun f => .bind (.mapM (fun p => ?_) _) fun _ => .pure _
    exact .bind (blind_asking _ f) fun _ => .pure _
  | reveal a =>
    refine .bind (blind_operand a) fun f => .bind (.look fun s t hst => ?_) fun _ => .pure _
    rw [Frugal.reveal_eq f hst]
  | equal a b => exact .bind (blind_operand a) fun _ => .bind (blind_operand b) fun _ => .pure _
  | parameters =>
    refine .get_bind fun s t hst => ?_
    rw [Frugal.parameters_eq hst]
    exact ⟨rfl, hst⟩
  -- switches
  | setMemo depth on =>
    intro s t hst
    have hrel := Frugal.rel_setMemoOn? depth on hst
    rw [Session.run_setMemo, Session.run_setMemo]
    revert hrel
    generalize setMemoOn? depth on s = x, setMemoOn? depth on t = y
    intro hrel
    cases hrel with
    | none => exact ⟨rfl, hst⟩
    | some hst => exact ⟨rfl, hst⟩
  | setFailing op on =>
    exact .bind (fun s t hst => ⟨rfl, Frugal.spent_setFailing op on hst⟩) fun _ => .pure _

end

/-! ## Steps that fail -/

/-- If the computation fails in a closed state, it leaves a spent one. -/
def Vain {ε S α : Type} [Counting S] [Closable S] (act : ExceptT ε (StateM S) α) : Prop :=
  ∀ s e, Closed s → (act.run s).1 = .error e → Spent s (act.run s).2

namespace Vain

variable {ε S F α β : Type} [Counting S] [Closable S]

/-- A step leaves what its action leaves. -/
theorem ofAction {act : Action S α} (h : Vain act) : Vain (StepAction.ofAction act) := by
  intro s e hs he
  have hvain := h s
  show Spent s (act.run s).2
  have hresult : (act.run s).1.mapError StepError.failure = .error e := he
  rcases hrun : act.run s with ⟨e' | a, t⟩
  · rw [hrun] at hvain
    exact hvain e' hs rfl
  · rw [hrun] at hresult
    cases hresult

/-- A computation that begins with a look at the state. -/
theorem look_bind {first : ExceptT ε (StateM S) α} {next : α → ExceptT ε (StateM S) β}
    (hfirst : ∀ s, (first.run s).2 = s) (hnext : ∀ s a, (first.run s).1 = .ok a → Vain (next a)) :
    Vain (first >>= next) := by
  intro s e hs he
  have hstate := hfirst s
  have hvain := hnext s
  rw [Stateful.run_bind] at he ⊢
  rcases hrun : first.run s with ⟨e' | a, t⟩
  · rw [hrun] at hstate
    cases hstate
    exact Counting.refl _
  · rw [hrun] at hstate hvain he
    cases hstate
    exact hvain a rfl _ e hs he

/-- What cannot fail leaves nothing by failing. -/
theorem ofState (act : StateM S α) : Vain (Action.ofState act) := by
  intro s e _ he
  cases he

variable [LayeredFactory S F] [Erasable S] [Storage S F]

/-- A function that stands for something can be reported on, so only making it can fail. -/
theorem making {act : StepAction S F} (hvain : Vain act) (hhands : Hands act) :
    Vain (Step.making act) := by
  intro s e hs he
  have hspent := hvain s
  have hreveal := (hhands s hs).2
  rw [Step.making, Stateful.run_bind] at he ⊢
  rcases hrun : act.run s with ⟨e' | f, t⟩
  · rw [hrun] at hspent
    exact hspent e' hs rfl
  · rw [hrun] at hreveal he
    obtain ⟨r, hr⟩ := hreveal f rfl
    obtain ⟨hs', hhandles⟩ := handles_of_reveal hr
    -- so there is a text to report and a handle in every layer
    have hreport : Step.report f t =
        .ok (.function (r.text (FunctionFactory.names t)) hs'
          ((reports t).map fun r => r.2.functions)) := by
      unfold Step.report format
      rw [hr, hhandles]
      rfl
    have hok : (StepAction.ofState (Step.report f)).run t =
        ((Step.report f t).mapError .failure, t) := rfl
    rw [hreport] at hok
    dsimp only at he
    rw [Stateful.run_bind_of_ok hok] at he
    cases he

end Vain

/-- A step hands out what its action hands out. -/
theorem hands_ofAction {S F : Type} [LayeredFactory S F] [Closable S] {act : Action S F}
    (h : Hands act) : Hands (StepAction.ofAction act) := by
  intro s hs
  obtain ⟨hclosed, hreveal⟩ := h s hs
  refine ⟨hclosed, fun f hf => hreveal f ?_⟩
  have hresult : (act.run s).1.mapError StepError.failure = .ok f := hf
  rcases hrun : (act.run s).1 with e | g
  · rw [hrun] at hresult
    cases hresult
  · rw [hrun] at hresult
    cases hresult
    rfl

/-- Differences, the steps that may leave something. -/
def Step.isDifference : Step → Bool
  | apply (.subtract _ _) => true
  | _ => false

section

variable {S F : Type} [LayeredFactory S F] [Closable S] [Closing S F]

/-- Every change but an operation keeps a stack closed. -/
theorem stable_closed : Stable (Closed : S → Prop) where
  constant c _ hs := (Closing.hands_constant c _ hs).1
  embed r _ hs := (Closing.hands_embed r _ hs).1
  renew f _ hs := (Closing.hands_renew f _ hs).1
  setMemoOn? h hs := Closing.closed_setMemoOn? h hs
  setFailing op on _ hs := Closing.closed_setFailing op on hs

variable [Counting S] [Erasable S] [Frugal S F] [Storage S F] [BEq F]
variable {made : Array (Option F)}

/-- **A step that fails**, and is no difference, leaves a spent state. -/
theorem vain_perform {step : Step} (hstep : step.isDifference = false) :
    Vain (step.perform made : StepAction S _) := by
  have hoperand (a : Nat) (s : S) : ((Step.operand made a).run s).2 = s :=
    Leaves.operand (P := (· = s)) a s rfl
  -- steps that look leave nothing, steps that make a function can only fail in making it
  by_cases hlooks : step.Looks
  · intro s e _ _
    rw [Leaves.looks (P := (· = s)) hlooks s rfl]
    exact Counting.refl s
  · cases step with
    | constant c =>
      exact .making (.ofAction (.ofState _)) (hands_ofAction (Closing.hands_constant c))
    | apply op =>
      refine .making (.look_bind (Step.snd_operands made op) fun s op' hop' => .ofAction ?_) ?_
      · -- the operands are other ones, the operation is the same
        have hrun := Operation.run_mapM (s := s) (f := Step.operand (S := S) made)
          (fun a => Prod.ext rfl (hoperand a s)) op
        rw [hrun] at hop'
        have hsub : ∀ a b, op ≠ .subtract a b := by
          rintro a b rfl
          cases hstep
        exact fun s e _ he =>
          Frugal.spent_apply (Operation.ne_subtract_of_mapM hop' hsub) he
      · -- what is made stands for something, so it is reported
        refine .bind (fun s hs => ?_) fun op' => hands_ofAction (Closing.hands_apply op')
        rw [Step.snd_operands]
        exact hs
    | polynomial p =>
      refine .making (.look_bind (fun _ => rfl) fun _ _ _ => .ofAction (.ofState _)) ?_
      exact .bind (fun _ hs => hs) fun _ => hands_ofAction (Closing.hands_embed _)
    | fraction p q =>
      refine .making (.look_bind (fun _ => rfl) fun _ _ _ => .ofAction (.ofState _)) ?_
      exact .bind (fun _ hs => hs) fun r => hands_ofAction (Closing.hands_embed r)
    | renew a =>
      refine .making (.look_bind (hoperand a) fun _ f _ => .ofAction fun s e _ he => ?_) ?_
      · exact Frugal.spent_renew he
      · refine .bind (fun s hs => ?_) fun f => hands_ofAction (Closing.hands_renew f)
        rw [hoperand]
        exact hs
    | setMemo depth on =>
      intro s e _ he
      rw [Session.run_setMemo] at he ⊢
      cases ht : setMemoOn? depth on s with
      | none => exact Counting.refl s
      | some t =>
        rw [ht] at he
        cases he
    | setFailing op on =>
      intro s e _ he
      cases he
    | foreign | find | evaluate | constantValue | check | properties | reveal | equal | statistics
      | parameters => exact absurd trivial hlooks

end

/-! ## Programs without the steps that fail -/

namespace Step

/-- The step with other numbers for its operands. -/
def renumber (ρ : Nat → Nat) : Step → Step
  | apply op => apply (op.map ρ)
  | renew a => renew (ρ a)
  | evaluate a point cancel => evaluate (ρ a) point cancel
  | constantValue a => constantValue (ρ a)
  | check a point strict => check (ρ a) point strict
  | properties a => properties (ρ a)
  | reveal a => reveal (ρ a)
  | equal a b => equal (ρ a) (ρ b)
  | step => step

/-- A step with other numbers for the same operands is the same step. -/
theorem perform_renumber {S F : Type} [LayeredFactory S F] [BEq F] {ρ : Nat → Nat}
    {made made' : Array (Option F)} (h : ∀ a, made'[ρ a]?.join = made[a]?.join) (step : Step) :
    ((step.renumber ρ).perform made' : StepAction S _) = step.perform made := by
  have hoperand (a : Nat) :
      (operand made' (ρ a) : StepAction S F) = operand made a := by
    unfold operand
    rw [h]
  cases step with
  | apply op =>
    cases op <;> simp only [renumber, perform, Operation.map, Operation.mapM, hoperand]
  | renew | evaluate | constantValue | check | properties | reveal | equal =>
    simp only [renumber, perform, hoperand]
  | constant | polynomial | fraction | foreign | find | setMemo | setFailing | statistics
    | parameters => rfl

end Step

/-- The new number of a step, given those of all steps that are kept. A step that is not kept gets
the number of the step that refers to it, and no step can use what it makes itself. -/
def newNumber (numbers : Array (Option Nat)) (own a : Nat) : Nat := numbers[a]?.join.getD own

namespace Session

variable {S F : Type} [LayeredFactory S F] [BEq F]

/-- The steps of a program that succeed when it is run, and all differences, with the answers that
they get. `numbers` holds the new numbers of the steps so far, and `next` is the next one. -/
def kept (s : Session S F) (numbers : Array (Option Nat)) (next : Nat) :
    List Step → List (Step × Except StepError Answer)
  | [] => []
  | first :: rest =>
    if (s.step first).1.isOk || first.isDifference then
      (first.renumber (newNumber numbers next), (s.step first).1) ::
        (s.step first).2.kept (numbers.push (some next)) (next + 1) rest
    else (s.step first).2.kept (numbers.push none) next rest

end Session

/-- The answer without the numbers of misses and of calls of the engine. -/
def Answer.withoutMisses : Answer → Answer
  | statistics reports _ =>
    statistics (reports.map fun r => (r.1, r.2.withoutMisses)) (.replicate 0)
  | a => a

/-- What the steps of a program made, and what those that are kept make. -/
structure Renumbered {F : Type} (numbers : Array (Option Nat)) (made made' : Array (Option F)) :
    Prop where
  size : numbers.size = made.size
  lt {a i : Nat} : numbers[a]?.join = some i → i < made'.size
  eq (a : Nat) : made'[newNumber numbers made'.size a]?.join = made[a]?.join
  functions : made'.filterMap id = made.filterMap id

namespace Renumbered

variable {F : Type} {numbers : Array (Option Nat)} {made made' : Array (Option F)}

theorem empty : Renumbered #[] (#[] : Array (Option F)) #[] :=
  ⟨rfl, fun h => by simp at h, fun _ => rfl, rfl⟩

/-- A step that made nothing cannot be told from one that does not exist. -/
theorem join_push_none {α : Type} (xs : Array (Option α)) (a : Nat) :
    (xs.push none)[a]?.join = xs[a]?.join := by
  rw [Array.getElem?_push]
  split
  · rename_i ha
    rw [Array.getElem?_eq_none (Nat.le_of_eq ha.symm)]
    rfl
  · rfl

/-- A step that is not kept makes nothing and gets no number. -/
theorem drop (h : Renumbered numbers made made') :
    Renumbered (numbers.push none) (made.push none) made' := by
  refine ⟨by simp [h.size], fun {a i} hi => h.lt (join_push_none numbers a ▸ hi), fun a => ?_, ?_⟩
  · rw [newNumber, join_push_none, join_push_none]
    exact h.eq a
  · rw [h.functions]
    simp

/-- A step that is kept gets the next number, and both make the same function. -/
theorem keep (h : Renumbered numbers made made') (f : Option F) :
    Renumbered (numbers.push (some made'.size)) (made.push f) (made'.push f) := by
  refine ⟨by simp [h.size], fun {a i} hi => ?_, fun a => ?_, ?_⟩
  · rw [Array.size_push]
    rw [Array.getElem?_push] at hi
    split at hi
    · -- the new step
      cases hi
      exact Nat.lt_succ_self _
    · exact Nat.lt_succ_of_lt (h.lt hi)
  · have hold := h.eq a
    have hnumber : (numbers.push (some made'.size))[a]? =
        if a = made.size then some (some made'.size) else numbers[a]? := by
      rw [Array.getElem?_push, h.size]
    have hpush : (made.push f)[a]? = if a = made.size then some f else made[a]? :=
      Array.getElem?_push
    unfold newNumber at hold ⊢
    rw [hnumber, hpush]
    by_cases ha : a = made.size
    · -- the new step
      rw [if_pos ha, if_pos ha, Option.join_some, Option.getD_some, Array.getElem?_push_size]
    · rw [if_neg ha, if_neg ha, ← hold]
      cases hi : numbers[a]?.join with
      | some i =>
        -- a step that was kept
        rw [Option.getD_some, Option.getD_some, Array.getElem?_push,
          if_neg (Nat.ne_of_lt (h.lt hi))]
      | none =>
        -- a step that was not: its number names no step
        rw [Option.getD_none, Option.getD_none, Array.getElem?_eq_none (Nat.le_refl _),
          Array.getElem?_eq_none (Nat.le_refl _)]
  · have hfunctions := h.functions
    cases f <;> simp [hfunctions]

end Renumbered

section

variable {S F : Type} [LayeredFactory S F] [BEq F]

/-- A step keeps a stack closed, whether or not it fails. -/
theorem Session.closed_step [Closable S] [Closing S F] {x : Session S F} (hx : Closed x.factory)
    (step : Step) : Closed (x.step step).2.factory := by
  rw [factory_step]
  exact Leaves.perform stable_closed (fun _ _ op' s hs => (Closing.hands_apply op' s hs).1) _ hx

variable [Counting S] [Frugal S F]

/-- **One step** of two sessions that find the same operands, in a spent state and before. -/
theorem Session.beside_step {x y : Session S F} (hxy : Spent y.factory x.factory)
    {step step' : Step} (hperform : (step'.perform y.made : StepAction S _) = step.perform x.made) :
    (y.step step').1.map Answer.withoutMisses = (x.step step).1.map Answer.withoutMisses ∧
      Spent (y.step step').2.factory (x.step step).2.factory ∧
      ∃ f, (y.step step').2.made = y.made.push f ∧ (x.step step).2.made = x.made.push f := by
  unfold Session.step
  rw [hperform]
  by_cases hstep : step = .statistics
  · -- both answers are the same without the counts
    subst hstep
    refine ⟨?_, hxy, none, rfl, rfl⟩
    show Except.ok (Answer.statistics ((reports y.factory).map _) _) =
      Except.ok (Answer.statistics ((reports x.factory).map _) _)
    rw [Frugal.reports_eq hxy]
  · have hblind : Blind (step.perform x.made : StepAction S _) := blind_perform hstep
    obtain ⟨hresult, hstate⟩ := hblind _ _ hxy
    rcases hy : (step.perform x.made).run y.factory with ⟨_ | ⟨f, a⟩, t⟩ <;>
      rcases hx : (step.perform x.made).run x.factory with ⟨_ | ⟨g, b⟩, t'⟩ <;>
      rw [hx, hy] at hresult hstate <;> cases hresult
    · exact ⟨rfl, hstate, none, rfl, rfl⟩
    · exact ⟨rfl, hstate, f, rfl, rfl⟩

variable [Closable S] [Erasable S] [Closing S F] [Storage S F]

/-- A step that is not kept leaves a spent state and makes nothing. -/
theorem Session.spent_step {x : Session S F} (hx : Closed x.factory) {step : Step}
    (hfails : ¬ ((x.step step).1.isOk || step.isDifference)) :
    Spent x.factory (x.step step).2.factory ∧ (x.step step).2.made = x.made.push none := by
  simp only [Bool.or_eq_true, not_or, Bool.not_eq_true] at hfails
  obtain ⟨hok, hdifference⟩ := hfails
  have hvain : Vain (step.perform x.made : StepAction S _) := vain_perform hdifference
  replace hvain := hvain x.factory
  unfold Session.step at hok ⊢
  rcases hrun : (step.perform x.made).run x.factory with ⟨e | ⟨f, a⟩, t⟩
  · rw [hrun] at hvain
    exact ⟨hvain e hx rfl, rfl⟩
  · rw [hrun] at hok
    cases hok

/-- **A whole run** without the steps that fail, on the states that these steps leave behind. -/
theorem Session.beside_run {x y : Session S F} {numbers : Array (Option Nat)} (steps : List Step)
    (hx : Closed x.factory) (hxy : Spent y.factory x.factory)
    (hmade : Renumbered numbers x.made y.made) :
    (y.run ((x.kept numbers y.made.size steps).map Prod.fst)).1.map (·.map Answer.withoutMisses) =
        (x.kept numbers y.made.size steps).map (fun k => k.2.map Answer.withoutMisses) ∧
      Spent (y.run ((x.kept numbers y.made.size steps).map Prod.fst)).2.factory
        (x.run steps).2.factory ∧
      (y.run ((x.kept numbers y.made.size steps).map Prod.fst)).2.made.filterMap id =
        (x.run steps).2.made.filterMap id := by
  -- on the steps of the program; the numbers grow with every step, the other session with each kept
  induction steps generalizing x y numbers with
  | nil => exact ⟨rfl, hxy, hmade.functions⟩
  | cons first rest ih =>
    have hclosed := closed_step hx first
    by_cases hkept : (x.step first).1.isOk || first.isDifference
    · -- a step that is kept finds its operands under their new numbers
      have hperform := Step.perform_renumber (S := S) hmade.eq first
      obtain ⟨hanswer, hstate, f, hy', hx'⟩ := beside_step hxy hperform
      have hmade' := hmade.keep f
      rw [← hy', ← hx'] at hmade'
      obtain ⟨hanswers, hend⟩ := ih hclosed hstate hmade'
      rw [hy', Array.size_push] at hanswers hend
      rw [kept, if_pos hkept, List.map_cons, run, run, List.map_cons, List.map_cons]
      refine ⟨?_, hend⟩
      rw [hanswer, hanswers]
    · -- a step that is not kept spends something on one side only
      obtain ⟨hspent, hx'⟩ := spent_step hx hkept
      have hmade' := hmade.drop
      rw [← hx'] at hmade'
      rw [kept, if_neg hkept, run]
      exact ih hclosed (Counting.trans hxy hspent) hmade'

end

/-! ## The results -/

/-- What failures leave behind in a stack of caches, whatever its state. -/
structure LeavesNothing (S : Type) {F : Type} [LayeredFactory S F] [BEq F] [Counting S] : Prop where
  /-- An operation that fails leaves more misses and calls at most. -/
  operation {op : Operation F} {s : S} {e : Failure} : (∀ a b, op ≠ .subtract a b) →
    ((FunctionFactory.apply op).run s).1 = .error e → Spent s ((FunctionFactory.apply op).run s).2
  /-- A difference may also have stored the negated second operand in each layer. -/
  difference {a b : F} {s : S} {e : Failure} :
    ((FunctionFactory.apply (.subtract a b)).run s).1 = .error e →
      Spent s ((FunctionFactory.apply (.subtract a b)).run s).2 ∨ ∃ r, reveal b s = .ok r ∧
        Spent (embed r.neg s).2 ((FunctionFactory.apply (.subtract a b)).run s).2
  /-- So does a function that cannot be stored anew. -/
  renewal {f : F} {s : S} {e : Failure} :
    ((renew f).run s).1 = .error e → Spent s ((renew f).run s).2
  /-- Steps that look change nothing at all, whether or not they fail. -/
  look (x : Session S F) {step : Step} : step.Looks → (x.step step).2.factory = x.factory

/-- The steps of a program that do not fail do the same without those that do. -/
structure Session.WithoutFailures {S F : Type} [LayeredFactory S F] [BEq F] [Counting S]
    (start : Session S F) (program : List Step) : Prop where
  /-- Each step gives the same answer, but for the numbers of misses and calls. -/
  answers : (start.run ((start.kept #[] 0 program).map Prod.fst)).1.map
      (·.map Answer.withoutMisses) =
    (start.kept #[] 0 program).map fun k => k.2.map Answer.withoutMisses
  /-- The whole program leaves more misses and calls at most. -/
  state : Spent (start.run ((start.kept #[] 0 program).map Prod.fst)).2.factory
    (start.run program).2.factory
  /-- Both make the same functions, in the same order. -/
  made : (start.run ((start.kept #[] 0 program).map Prod.fst)).2.made.filterMap id =
    (start.run program).2.made.filterMap id

/-- Failures leave nothing in a cache around any layers that are frugal. -/
theorem leavesNothing {S F : Type} [LayeredFactory S F] [BEq F] [LawfulBEq F] [Hashable F]
    [Counting S] [Frugal S F] : LeavesNothing (Cache S F) where
  operation := Frugal.spent_apply
  difference {a b c e} he := by
    rw [Cache.apply_subtract, Stateful.run_bind] at he ⊢
    have hfails (e : Failure)
        (he : ((FunctionFactory.apply (.negate b) : Action _ Handle).run c).1 = .error e) :=
      Frugal.spent_apply (by simp) he
    rcases hrun : (FunctionFactory.apply (.negate b)).run c with ⟨e' | h, c'⟩
    · -- the negation fails
      rw [hrun] at hfails
      exact Or.inl (hfails e' rfl)
    · -- the sum fails, in the state that the negation leaves
      obtain ⟨r, hr, hnegated⟩ := Frugal.negate_of_ok (f := b) (g := h) (s := c) (by rw [hrun])
      rw [hrun] at he
      rw [hnegated] at hrun
      cases hrun
      exact Or.inr ⟨r, hr, Frugal.spent_apply (by simp) he⟩
  renewal := Frugal.spent_renew
  look x {step} hstep := by
    rw [Session.factory_step]
    exact Leaves.looks (P := (· = x.factory)) hstep _ rfl

/-- A run from a closed state can do without the steps that fail. -/
theorem Session.withoutFailures {S F : Type} [LayeredFactory S F] [BEq F] [Counting S] [Closable S]
    [Erasable S] [Frugal S F] [Closing S F] [Storage S F] {s : S} (hs : Closed s)
    (program : List Step) : (start s).WithoutFailures program := by
  obtain ⟨hanswers, hstate, hmade⟩ :=
    beside_run (x := start s) (y := start s) program hs (Counting.refl s) .empty
  exact ⟨hanswers, hstate, hmade⟩

/-- **Failures leave nothing.** In any state of a cache around the engine, or of a cache around a
cache, an operation that fails leaves all tables and all memos as they are, except that a difference
may store the negated second operand. Steps that look at functions leave the state alone. So in
every run the steps that fail, differences apart, can be left out, and nothing that the other steps
make or answer changes but the numbers of misses and calls. -/
theorem Session.failures_leave_nothing (e : Engine) (outerOn innerOn : Bool) (program : List Step) :
    LeavesNothing CachedEngine ∧ LeavesNothing TwiceCachedEngine ∧
      (cached e outerOn).WithoutFailures program ∧
      (twiceCached e outerOn innerOn).WithoutFailures program := by
  have hbare : Closed (Metered.ofContext e) := trivial
  have honce : Closed (Cache.ofContext innerOn (Metered.ofContext e)) :=
    Cache.closed_ofContext innerOn hbare
  exact ⟨leavesNothing, leavesNothing,
    withoutFailures (Cache.closed_ofContext outerOn hbare) program,
    withoutFailures (Cache.closed_ofContext outerOn honce) program⟩

end FunctionCache
