import FunctionCache.Proofs.Layers.Cached
import FunctionCache.Proofs.Programs.Scheduled

/-!
# What programs store

A cache stores what its operations make, and a difference stores a negated
operand, too. If the operations of a program lead from functions of some kind to
functions of that kind, and the program stores no other functions by itself, all
functions in the cache stay of that kind.

* `Engine.Maintains` — operations that do not lead out of a kind of functions;
* `Cache.Confined` — every handle of the cache stands for a function of the kind;
* `Cache.Confined.apply` — operations do not end that;
* `Step.Within`, `Cache.Confined.leaves_perform` — nor do the other steps.
-/

namespace FunctionCache

open LayeredFactory Erasable Storage Transparent

namespace Operation

variable {F G : Type}

/-- The operation without its operands. -/
def shape (op : Operation F) : Operation Unit := op.map fun _ => ()

theorem shape_map (f : F → G) (op : Operation F) : (op.map f).shape = op.shape := by
  cases op <;> rfl

/-- A replacement of operands keeps the shape. -/
theorem shape_of_mapM {ε : Type} {g : F → Except ε G} {op : Operation F} {op' : Operation G}
    (h : op.mapM g = .ok op') : op'.shape = op.shape := by
  obtain ⟨pairs, rfl, rfl, -⟩ := mapM_eq_ok.mp h
  rw [shape_map, shape_map]

end Operation

/-- Operations of some shapes lead from functions with a property to functions with it. -/
structure Engine.Maintains (e : Engine) (shapes : Operation Unit → Prop)
    (Q : RationalFunction → Prop) : Prop where
  inParameters {f : RationalFunction} : Q f → f.InParameters e.numVars
  compute {op : Operation RationalFunction} {f : RationalFunction} : shapes op.shape →
    (∀ a ∈ op.operands, Q a) → e.compute op = .ok f → Q f
  /-- A difference is made of a negation and a sum. -/
  subtract : shapes (.subtract () ()) → shapes (.negate ()) ∧ shapes (.add () ())

/-- A step that stores no functions without the property, if its operands have it. -/
def Step.Within (e : Engine) (shapes : Operation Unit → Prop) (Q : RationalFunction → Prop) :
    Step → Prop
  | constant c => Q (e.constant c)
  | apply op => shapes op.shape
  | polynomial p => Q (e.ofPolynomial p)
  | fraction p q => ∀ f, RationalFunction.ofFraction p q = .ok f → Q f
  | _ => True

namespace Cache

variable {S F : Type} [LayeredFactory S F] [BEq F] [LawfulBEq F] [Hashable F] [Erasable S]
variable {e : Engine} {shapes : Operation Unit → Prop} {Q : RationalFunction → Prop}

/-- A sound cache around the engine `e` that stores functions with a property only. -/
structure Confined (e : Engine) (Q : RationalFunction → Prop) (c : Cache S F) : Prop where
  faithful : c.Faithful
  engine : engine c = e
  stored {h : Handle} {r : RationalFunction} : reveal h c = .ok r → Q r

namespace Confined

variable {c c' : Cache S F}

section

variable [Storage S F]

/-- What a cache has stored is not erased. -/
theorem of_erase_eq (hc : c.Confined e Q) (herase : erase c' = erase c) (hc' : c'.Faithful) :
    c'.Confined e Q where
  faithful := hc'
  engine := by rw [← hc.engine, (Extends.of_erase_eq herase).engine]
  stored hr := hc.stored ((Extends.of_erase_eq herase).reveal hr)

/-- Only the function that has just been stored can be new. -/
theorem reveal_embed_cases (hc : c.Faithful) {h : Handle} {q r : RationalFunction}
    (hq : reveal h (embed r c).2 = .ok q) : reveal h c = .ok q ∨ q = r := by
  obtain ⟨f, hf, hq⟩ := reveal_eq_ok.mp hq
  have hext := Extends.of_embed r c.context
  rcases Table.resolve?_intern_cases hf with hf | ⟨-, rfl⟩
  · -- stored before, and it stands for what it stood for
    obtain ⟨q', hq', -⟩ := hc.revealed hf
    have hqq : q' = q := Except.ok.inj ((hext.reveal hq').symm.trans hq)
    rw [← hqq]
    exact Or.inl (reveal_eq_ok.mpr ⟨f, hf, hq'⟩)
  · exact Or.inr (Except.ok.inj (hq.symm.trans (reveal_embed r c.context)))

/-- Storing a function of the kind. -/
theorem embed (hQ : e.Maintains shapes Q) (hc : c.Confined e Q) {r : RationalFunction} (hr : Q r) :
    (embed r c).2.Confined e Q where
  faithful := by
    refine sound_embed (S := Cache S F) hc.faithful ?_
    rw [hc.engine]
    exact hQ.inParameters hr
  engine := by rw [← hc.engine, (Extends.of_embed r c).engine]
  stored hq := by
    -- a function revealed now is an old one or the new one
    rcases reveal_embed_cases hc.faithful hq with hq | rfl
    · exact hc.stored hq
    · exact hr

end

variable [Transparent S F]

/-! ## Operations -/

/-- Any operation but the difference stores one result, or nothing. -/
theorem apply_of_ne_subtract (hQ : e.Maintains shapes Q) (hc : c.Confined e Q)
    {op : Operation Handle} (hop : ∀ a b, op ≠ .subtract a b) (hshape : shapes op.shape) :
    ((FunctionFactory.apply op).run c).2.Confined e Q := by
  have hfaithful := hc.faithful.apply op
  rcases (hc.faithful.settles_apply hop).cases with ⟨-, -, hstate⟩ | ⟨r, hr, -, hstate⟩
  · -- nothing stored
    exact hc.of_erase_eq hstate hfaithful
  · obtain ⟨op₀, hop₀, hr⟩ := computed_eq_ok.mp hr
    rw [hc.engine] at hr
    -- the operands are stored functions, so the result is of the kind
    have hresult : Q r := by
      refine hQ.compute (Operation.shape_of_mapM hop₀ ▸ hshape) (fun a ha => ?_) hr
      obtain ⟨h, -, hreveal⟩ := Operation.exists_operand_of_mapM hop₀ ha
      exact hc.stored hreveal
    exact (Confined.embed hQ hc hresult).of_erase_eq hstate hfaithful

/-- **An operation** stores a result, or a negated operand and a sum. -/
theorem apply (hQ : e.Maintains shapes Q) (hc : c.Confined e Q) {op : Operation Handle}
    (hshape : shapes op.shape) : ((FunctionFactory.apply op).run c).2.Confined e Q := by
  by_cases hop : ∃ a b, op = .subtract a b
  · obtain ⟨a, b, rfl⟩ := hop
    obtain ⟨hnegate, hadd⟩ := hQ.subtract hshape
    have hnegated : ((FunctionFactory.apply (.negate b)).run c).2.Confined e Q :=
      hc.apply_of_ne_subtract hQ (by simp) hnegate
    rw [apply_subtract, Stateful.run_bind]
    rcases hrun : (FunctionFactory.apply (.negate b)).run c with ⟨_ | h, c'⟩
    · rw [hrun] at hnegated
      exact hnegated
    · rw [hrun] at hnegated
      exact hnegated.apply_of_ne_subtract hQ (by simp) hadd
  · exact hc.apply_of_ne_subtract hQ (fun a b hab => hop ⟨a, b, hab⟩) hshape

/-! ## Steps -/

theorem setMemoOn? (hc : c.Confined e Q) {depth : Nat} {on : Bool}
    (h : setMemoOn? depth on c = some c') : c'.Confined e Q :=
  hc.of_erase_eq (erase_setMemoOn? h) (sound_setMemoOn? (S := Cache S F) h hc.faithful)

/-- Refusals store nothing. -/
theorem setFailing (hc : c.Confined e Q) (op : Memoized) (on : Bool) :
    Confined e Q (setFailing op on c) where
  faithful := sound_setFailing (S := Cache S F) op on hc.faithful
  engine := by rw [← hc.engine, (Extends.of_setFailing op on c).engine]
  stored hr := hc.stored (by rwa [reveal_setFailing] at hr)

/-- **Every step** within the kind of functions stores such functions only. -/
theorem leaves_perform (hQ : e.Maintains shapes Q) {step : Step} (hstep : step.Within e shapes Q)
    (made : Array (Option Handle)) :
    Leaves (Confined e Q) (step.perform made : StepAction (Cache S F) _) := by
  by_cases hlooks : step.Looks
  · exact .looks hlooks
  · cases step with
    | apply op =>
      intro c hc
      rw [Session.snd_perform_apply, Step.run_operands]
      cases hop' : op.mapM (Step.found made) with
      | error e => exact hc
      | ok op' => exact hc.apply hQ (Operation.shape_of_mapM hop' ▸ hstep)
    | constant constant =>
      refine .making (.ofAction fun c hc => ?_)
      rw [Stateful.run_ofState, constant_eq (S := Cache S F) constant hc.faithful, hc.engine]
      exact hc.embed hQ hstep
    -- over the number of parameters that the cache has from its engine
    | polynomial p =>
      refine .making fun c hc => ?_
      refine hc.embed hQ (r := RationalFunction.ofPolynomial (FunctionFactory.numVariables c) p) ?_
      rw [show FunctionFactory.numVariables c = (LayeredFactory.engine c).numVars from rfl,
        hc.engine]
      exact hstep
    | fraction p q =>
      refine .making ?_
      cases hf : RationalFunction.ofFraction p q with
      | error e => exact fun c hc => hc
      | ok f => exact fun c hc => hc.embed hQ (hstep f hf)
    | renew a =>
      refine .making (.bind (.operand a) fun h => .ofAction fun c hc => ?_)
      rw [renew_eq (S := Cache S F) h hc.faithful]
      exact hc
    | setMemo depth on =>
      intro c hc
      rw [Session.run_setMemo]
      cases ht : LayeredFactory.setMemoOn? depth on c with
      | none => exact hc
      | some t => exact hc.setMemoOn? ht
    | setFailing op on => exact .bind (fun _ hc => hc.setFailing op on) fun _ => .pure _
    | foreign | find | evaluate | constantValue | check | properties | reveal | equal | statistics
      | parameters => exact absurd trivial hlooks

end Confined

/-- A new cache stores 1 and 0. -/
theorem confined_ofContext [Transparent S F] (memoOn : Bool) {s : S}
    (hs : Sound s) (he : engine s = e) (hone : Q (e.constant .one)) (hzero : Q (e.constant .zero)) :
    (ofContext memoOn s : Cache S F).Confined e Q where
  faithful := faithful_ofContext memoOn hs
  engine := by rw [← he, engine, parameters_ofContext memoOn hs, engine]
  stored {h r} hr := by
    obtain ⟨f, hf, hr⟩ := reveal_eq_ok.mp hr
    rw [ofContext_eq memoOn hs, he] at hf hr
    rcases Table.resolve?_intern_cases hf with hf | ⟨-, rfl⟩
    · rcases Table.resolve?_intern_cases hf with hf | ⟨-, rfl⟩
      · rw [Table.resolve?_empty] at hf
        cases hf
      · -- storing 0 after it does not change what 1 is
        have hreveal := (Extends.of_embed (e.constant .zero) _).reveal
          (reveal_embed (e.constant .one) s)
        cases hreveal.symm.trans hr
        exact hone
    · have hreveal := reveal_embed (e.constant .zero) (embed (e.constant .one) s).2
      cases hreveal.symm.trans hr
      exact hzero

end Cache

end FunctionCache
