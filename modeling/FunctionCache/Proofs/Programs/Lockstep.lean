import FunctionCache.Proofs.Programs.Coupling

/-!
# Steps on two stacks side by side

A step that is performed on two stacks that belong together, with operands that
do, makes functions and answers that belong together.

* `Paired` — what the earlier steps made belongs together;
* `Step.Common` — the steps that every stack can perform;
* `Link.coupled_perform` — such a step keeps two stacks together.
-/

namespace FunctionCache

open LayeredFactory Erasable Storage Transparent

/-! ## What earlier steps made -/

/-- What the earlier steps made on either side. -/
def Paired {F F' : Type} (R : F → F' → Prop) (made : Array (Option F))
    (made' : Array (Option F')) : Prop :=
  made.size = made'.size ∧ ∀ i : Nat, Option.Rel R made[i]?.join made'[i]?.join

namespace Paired

variable {F F' : Type} {R R' : F → F' → Prop} {made : Array (Option F)} {made' : Array (Option F')}

/-- Both are missing, or both are there and related. -/
private theorem cases_of_rel {x : Option F} {y : Option F'} (h : Option.Rel R x y) :
    (x = none ∧ y = none) ∨ ∃ f f', x = some f ∧ y = some f' ∧ R f f' := by
  cases h with
  | none => exact Or.inl ⟨rfl, rfl⟩
  | some h => exact Or.inr ⟨_, _, rfl, rfl, h⟩

theorem empty : Paired R #[] #[] := ⟨rfl, fun _ => .none⟩

/-- A step made nothing on either side, or functions that belong together. -/
theorem cases (h : Paired R made made') (i : Nat) :
    (made[i]?.join = none ∧ made'[i]?.join = none) ∨
      ∃ f f', made[i]?.join = some f ∧ made'[i]?.join = some f' ∧ R f f' :=
  cases_of_rel (h.2 i)

/-- A weaker relation holds, too. -/
theorem mono (h : Paired R made made') (hR : ∀ f f', R f f' → R' f f') :
    Paired R' made made' := by
  refine ⟨h.1, fun i => ?_⟩
  rcases h.cases i with ⟨hnone, hnone'⟩ | ⟨f, f', hf, hf', hff⟩
  · -- no functions
    rw [hnone, hnone']
    exact .none
  · -- one on each side
    rw [hf, hf']
    exact .some (hR _ _ hff)

/-- One more step on both sides. -/
theorem push (h : Paired R made made') {f : Option F} {f' : Option F'} (hf : Option.Rel R f f') :
    Paired R (made.push f) (made'.push f') := by
  refine ⟨by simp [h.1], fun i => ?_⟩
  rw [Array.getElem?_push, Array.getElem?_push, h.1]
  split
  · -- the new step
    exact hf
  · -- an earlier step
    exact h.2 i

/-- What one side makes is what the other makes, in terms of any view of both that agrees. -/
theorem map_eq {α : Type} {φ : F → α} {ψ : F' → α} (h : Paired R made made')
    (hR : ∀ f f', R f f' → φ f = ψ f') :
    made.map (·.map φ) = made'.map (·.map ψ) := by
  refine Array.ext (by simp [h.1]) fun i hi hi' => ?_
  rw [Array.size_map] at hi hi'
  rw [Array.getElem_map, Array.getElem_map]
  have hcases := h.cases i
  rw [Array.getElem?_eq_getElem hi, Array.getElem?_eq_getElem hi', Option.join_some,
    Option.join_some] at hcases
  rcases hcases with ⟨hnone, hnone'⟩ | ⟨f, f', hf, hf', hff⟩
  · rw [hnone, hnone']
    rfl
  · rw [hf, hf', Option.map_some, Option.map_some, hR f f' hff]

/-- What one side has made has a partner on the other side. -/
theorem exists_of_mem (h : Paired R made made') {f : F} (hf : some f ∈ made) : ∃ f', R f f' := by
  obtain ⟨i, hi⟩ := Array.mem_iff_getElem?.mp hf
  rcases h.cases i with ⟨hnone, -⟩ | ⟨g, f', hg, -, hgf⟩
  · rw [hi] at hnone
    cases hnone
  · rw [hi] at hg
    cases hg
    exact ⟨f', hgf⟩

/-- The functions that the step with this number made, on either side. -/
def both (made : Array (Option F)) (made' : Array (Option F')) (a : Nat) :
    Except StepError (F × F') :=
  match made[a]?.join, made'[a]?.join with
  | some f, some f' => .ok (f, f')
  | _, _ => .error .badReference

/-- Two functions that are found are found at the same step. -/
theorem of_both (h : Paired R made made') {a : Nat} {p : F × F'} (hp : both made made' a = .ok p) :
    R p.1 p.2 := by
  unfold both at hp
  rcases h.cases a with ⟨hnone, -⟩ | ⟨f, f', hf, hf', hff⟩
  · rw [hnone] at hp
    cases hp
  · rw [hf, hf'] at hp
    cases hp
    exact hff

end Paired

/-! ## Steps -/

/-- The steps on functions that every stack of layers over `n` parameters can perform. -/
def Step.Common (n : Nat) : Step → Prop
  | polynomial p => p.numVars = n
  | fraction p q => p.numVars = n ∧ q.numVars = n
  | foreign _ | find _ _ | setMemo _ _ | setFailing _ _ | statistics => False
  | _ => True

instance (n : Nat) : (step : Step) → Decidable (step.Common n)
  | .polynomial p => inferInstanceAs (Decidable (p.numVars = n))
  | .fraction p q => inferInstanceAs (Decidable (p.numVars = n ∧ q.numVars = n))
  | .foreign _ | .find _ _ | .setMemo _ _ | .setFailing _ _ | .statistics => .isFalse id
  | .constant _ | .apply _ | .renew _ | .evaluate _ _ _ | .constantValue _ | .check _ _ _
  | .properties _ | .reveal _ | .equal _ _ | .parameters => .isTrue trivial

namespace Link

variable {S S' F F' : Type} [LayeredFactory S F] [LayeredFactory S' F'] [Erasable S] [Erasable S']
variable [BEq F] [BEq F'] {L : Link S S'} {s : S} {s' : S'}
variable {made : Array (Option F)} {made' : Array (Option F')}

/-- An operand is found on both sides or on neither. -/
theorem run_operand (hmade : Paired (L.Functions s s') made made') (a : Nat) :
    (Step.operand made a).run s = ((Paired.both made made' a).map Prod.fst, s) ∧
      (Step.operand made' a).run s' = ((Paired.both made made' a).map Prod.snd, s') := by
  unfold Step.operand Paired.both
  rcases hmade.cases a with ⟨hnone, hnone'⟩ | ⟨f, f', hf, hf', -⟩
  · rw [hnone, hnone']
    exact ⟨rfl, rfl⟩
  · rw [hf, hf']
    exact ⟨rfl, rfl⟩

/-- An operand leads to functions that belong together. -/
theorem coupled_operand (hs : L.Joint s s') (hmade : Paired (L.Functions s s') made made')
    (a : Nat) :
    L.Coupled L.Functions s s' ((Step.operand made a).run s) ((Step.operand made' a).run s') := by
  obtain ⟨hrun, hrun'⟩ := run_operand hmade a
  rw [hrun, hrun']
  cases hp : Paired.both made made' a with
  | error e => exact .error hs (.refl s) (.refl s')
  | ok p => exact .ok hs (.refl s) (.refl s') (hmade.of_both hp)

/-- The operands of an operation belong together, if there are any on either side. -/
theorem coupled_operands (hs : L.Joint s s') (hmade : Paired (L.Functions s s') made made')
    (op : Operation Nat) :
    L.Coupled (fun t t' op₁ op₂ => ∃ op : Operation (F × F'),
        op₁ = op.map Prod.fst ∧ op₂ = op.map Prod.snd ∧
          ∀ p ∈ op.operands, L.Functions t t' p.1 p.2)
      s s' ((op.mapM (Step.operand made)).run s) ((op.mapM (Step.operand made')).run s') := by
  rw [Operation.run_mapM (fun a => (run_operand hmade a).1) op,
    Operation.run_mapM (fun a => (run_operand hmade a).2) op,
    Operation.mapM_map_ok, Operation.mapM_map_ok]
  cases hop : op.mapM (Paired.both made made') with
  | error e => exact .error hs (.refl s) (.refl s')
  | ok op' =>
    refine .ok hs (.refl s) (.refl s') ⟨op', rfl, rfl, fun p hp => ?_⟩
    obtain ⟨a, -, ha⟩ := Operation.exists_operand_of_mapM hop hp
    exact hmade.of_both ha

variable [Transparent S F] [Transparent S' F']

/-- Reports on functions that belong together. -/
theorem coupled_report (hs : L.Joint s s') {f : F} {f' : F'} (hf : L.Functions s s' f f') :
    L.Coupled (fun _ _ => L.Answers) s s' ((StepAction.ofState (Step.report f)).run s)
      ((StepAction.ofState (Step.report f')).run s') := by
  have hnames : FunctionFactory.names s = FunctionFactory.names s' :=
    congrArg (List.map Parameter.name) (L.parameters_eq hs.states)
  have hreveal := L.reveal_eq hs.states hf
  show L.Coupled _ s s' ((Step.report f s).mapError _, s) ((Step.report f' s').mapError _, s')
  -- the text is that of the same function, and the handles are compared by the link
  unfold Step.report format
  rw [hreveal, hnames]
  cases hr : reveal f' s' with
  | error e => exact .error hs (.refl s) (.refl s')
  | ok r =>
    obtain ⟨hs₁, hhandles⟩ := handles_of_reveal (hreveal.trans hr)
    obtain ⟨hs₂, hhandles'⟩ := handles_of_reveal hr
    rw [hhandles, hhandles']
    exact .ok hs (.refl s) (.refl s') (L.answers_function _ hs.states hf hhandles hhandles')

/-- What a step makes and answers on either side. -/
def Results (L : Link S S') (t : S) (t' : S') (x : Option F × Answer) (y : Option F' × Answer) :
    Prop :=
  Option.Rel (L.Functions t t') x.1 y.1 ∧ L.Answers x.2 y.2

/-- Making functions that belong together, and reporting on them. -/
theorem coupled_making {act : StepAction S F} {act' : StepAction S' F'}
    (h : L.Coupled L.Functions s s' (act.run s) (act'.run s')) :
    L.Coupled L.Results s s' ((Step.making act).run s) ((Step.making act').run s') := by
  refine .bind h fun t t' f f' ht _ _ hf => ?_
  refine .bind (coupled_report ht hf) fun u u' x y hu later later' hxy => ?_
  exact .pure hu ⟨.some (L.functions_of_extends later later' hf), hxy⟩

/-- Questions are answered on what functions stand for, which is the same. -/
theorem coupled_asking {α : Type} (q : Query α) (hs : L.Joint s s') {f : F} {f' : F'}
    (hf : L.Functions s s' f f') :
    L.Coupled (fun _ _ => Eq) s s' ((Step.asking q f).run s) ((Step.asking q f').run s') := by
  refine .look hs ?_
  rw [ask_eq, ask_eq, L.reveal_eq hs.states hf, hs.engine_eq]

/-- **A step** that every stack can perform keeps two stacks together. -/
theorem coupled_perform (hs : L.Joint s s') (hmade : Paired (L.Functions s s') made made')
    {step : Step} (hstep : step.Common (engine s).numVars) :
    L.Coupled L.Results s s' ((step.perform made).run s) ((step.perform made').run s') := by
  -- steps that make no function end with an answer in which no handle occurs
  have hanswer {t : S} {t' : S'} (ht : L.Joint t t') {a : Answer}
      (ha : ∀ text hs ns, a ≠ .function text hs ns) :
      L.Coupled (ε := StepError) L.Results t t' ((pure (none, a) : StepAction S _).run t)
        ((pure (none, a) : StepAction S' _).run t') :=
    .pure ht ⟨.none, L.answers_self ha⟩
  cases step with
  -- steps that make a function
  | constant c => exact coupled_making (.ofAction (coupled_constant hs c))
  | apply op =>
    refine coupled_making (.bind (coupled_operands hs hmade op) fun t t' op₁ op₂ ht _ _ hop => ?_)
    obtain ⟨op', rfl, rfl, hfunctions⟩ := hop
    exact .ofAction (coupled_apply ht hfunctions)
  | polynomial p =>
    refine coupled_making (.bind (.get hs) fun t t' a b ht hlater _ hab => .ofAction ?_)
    obtain ⟨rfl, rfl⟩ := hab
    -- both sides normalize over the same number of variables
    have hnum : FunctionFactory.numVariables a = FunctionFactory.numVariables b :=
      congrArg List.length (L.parameters_eq ht.states)
    rw [hnum]
    refine coupled_embed ht ?_
    rw [← hnum]
    refine RationalFunction.inParameters_ofPolynomial ?_
    rw [hlater.engine]
    exact hstep
  | fraction p q =>
    -- a denominator of zero fails on both sides, before anything is stored
    have hlook : L.Coupled (fun _ _ f f' => f = f' ∧ RationalFunction.ofFraction p q = .ok f) s s'
        ((StepAction.ofState fun _ => liftM (RationalFunction.ofFraction p q)).run s)
        ((StepAction.ofState fun _ => liftM (RationalFunction.ofFraction p q)).run s') := by
      cases RationalFunction.ofFraction p q with
      | error e => exact .error hs (.refl s) (.refl s')
      | ok f => exact .ok hs (.refl s) (.refl s') ⟨rfl, rfl⟩
    refine coupled_making (.bind hlook fun t t' f f' ht hlater _ hff => .ofAction ?_)
    obtain ⟨rfl, hf⟩ := hff
    refine coupled_embed ht ?_
    rw [hlater.engine]
    exact RationalFunction.inParameters_ofFraction hstep.1 hstep.2 hf
  | renew a =>
    refine coupled_making (.bind (coupled_operand hs hmade a) fun t t' f f' ht _ _ hf => ?_)
    exact .ofAction (coupled_renew ht hf)
  -- steps that ask about a function
  | evaluate a point cancel =>
    refine .bind (coupled_operand hs hmade a) fun t t' f f' ht _ _ hf => ?_
    cases cancel with
    | true =>
      refine .bind (coupled_asking (.value point) ht hf) fun u u' x y hu _ _ hxy => ?_
      cases hxy
      exact hanswer hu (by simp)
    | false =>
      refine .bind (coupled_asking (.quotient point) ht hf) fun u u' x y hu _ _ hxy => ?_
      cases hxy
      exact hanswer hu (by simp)
  | constantValue a =>
    refine .bind (coupled_operand hs hmade a) fun t t' f f' ht _ _ hf => ?_
    refine .bind (coupled_asking .constantValue ht hf) fun u u' x y hu _ _ hxy => ?_
    cases hxy
    exact hanswer hu (by simp)
  | check a point strict =>
    refine .bind (coupled_operand hs hmade a) fun t t' f f' ht _ _ hf => ?_
    refine .bind (coupled_asking (.check point strict) ht hf) fun u u' x y hu _ _ hxy => ?_
    cases hxy
    exact hanswer hu (by simp)
  | properties a =>
    refine .bind (coupled_operand hs hmade a) fun t t' f f' ht _ _ hf => ?_
    -- all properties in turn, each on the states after the one before
    have hall : L.Coupled (fun _ _ => Eq) t t'
        ((Property.all.mapM fun p => return (p, ← Step.asking (.property p) f) :
          StepAction S _).run t)
        ((Property.all.mapM fun p => return (p, ← Step.asking (.property p) f') :
          StepAction S' _).run t') := by
      refine Coupled.mapM (fun p u u' hu hlater hlater' => ?_) Property.all ht
      have hf := L.functions_of_extends hlater hlater' hf
      refine .bind (coupled_asking (.property p) hu hf) fun v v' x y hv _ _ hxy => ?_
      cases hxy
      exact .pure hv rfl
    refine .bind hall fun u u' xs ys hu _ _ hxys => ?_
    cases hxys
    exact hanswer hu (by simp)
  | reveal a =>
    refine .bind (coupled_operand hs hmade a) fun t t' f f' ht _ _ hf => ?_
    refine .bind (.look ht ?_) fun u u' x y hu _ _ hxy => ?_
    · rw [L.reveal_eq ht.states hf]
    · cases hxy
      exact hanswer hu (by simp)
  | equal a b =>
    refine .bind (coupled_operand hs hmade a) fun t t' f f' ht hlater hlater' hf => ?_
    have hmade' := hmade.mono fun f f' => L.functions_of_extends hlater hlater'
    refine .bind (coupled_operand ht hmade' b) fun u u' g g' hu hlater hlater' hg => ?_
    rw [L.beq_eq hu.sound hu.sound' hu.states (L.functions_of_extends hlater hlater' hf) hg]
    exact hanswer hu (by simp)
  -- steps that look at the stack
  | parameters =>
    refine .bind (.get hs) fun t t' a b ht _ _ hab => ?_
    obtain ⟨rfl, rfl⟩ := hab
    rw [L.parameters_eq ht.states]
    exact hanswer ht (by simp)
  -- not for every stack
  | foreign | find | setMemo | setFailing | statistics => exact hstep.elim

end Link

end FunctionCache
