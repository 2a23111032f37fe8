import FunctionCache.Proofs.Layers.Transparent

/-!
# The bottom of the layers

The metered engine stores nothing: a function of the bottom stands for itself,
and an operation is its own reference, unless it is refused.
-/

namespace FunctionCache

open LayeredFactory Erasable

namespace Metered

/-- Erasing resets the counts. What is refused stays so. -/
instance : Erasable (Metered Engine) where
  erase m := { m with calls := .replicate 0 }
  Sound _ := True
  refusing m := m.failing

/-- At the bottom nothing has to be stored: the reference computes and leaves the state alone. -/
theorem reference_eq (op : Operation RationalFunction) (m : Metered Engine) :
    reference op m = (m.context.compute op, m) := by
  have hreveal : op.mapM (reveal · m) = .ok op := by
    rw [← congrArg Except.ok op.map_id]
    exact Operation.mapM_ok id op
  have hcomputed : computed op m = m.context.compute op := by
    rw [computed, hreveal]
    rfl
  rw [reference, hcomputed]
  cases m.context.compute op <;> rfl

/-- **An operation of the metered engine** is counted if it is a memoized one, and then refused or
computed. -/
theorem run_apply (op : Operation RationalFunction) (m : Metered Engine) :
    (FunctionFactory.apply op).run m = match op.memoized? with
      | none => (m.context.compute op, m)
      | some called =>
        if m.failing.get called then
          (.error (.error (.invalidParameters (.disabled called))), m.count called)
        else (m.context.compute op, m.count called) := by
  show (apply op).run m = _
  rw [apply]
  cases op.memoized? with
  | none => rfl
  | some called =>
    simp only [Stateful.run_bind, Stateful.run_modify, Stateful.run_get]
    show (if m.failing.get called then _ else _ : Action _ _).run _ = _
    split_ifs <;> rfl

theorem not_failing {m : Metered Engine} (hm : Willing m) (op : Memoized) :
    ¬m.failing.get op = true := Bool.eq_false_iff.mp (hm op)

/-- The result of an operation, if none is refused. -/
theorem result_eq (op : Operation RationalFunction) {m : Metered Engine} (hm : Willing m) :
    ((FunctionFactory.apply op).run m).1 = m.context.compute op := by
  rw [run_apply]
  cases op.memoized? with
  | none => rfl
  | some called =>
    dsimp only
    rw [if_neg (not_failing hm called)]

/-- **Every operation of the metered engine** is settled: computed, or refused. -/
theorem settles_apply (op : Operation RationalFunction) (m : Metered Engine) :
    Settles op m ((FunctionFactory.apply op).run m) := by
  rw [run_apply]
  cases hop : op.memoized? with
  | none =>
    -- not counted
    refine Or.inl ?_
    rw [reference_eq]
    exact .refl _
  | some called =>
    dsimp only
    split_ifs with hfailing
    · -- refused
      exact Or.inr ⟨called, hop, hfailing, rfl, rfl⟩
    · -- counted, and computed
      refine Or.inl ?_
      rw [reference_eq]
      exact ⟨rfl, rfl⟩

instance : Transparent (Metered Engine) RationalFunction where
  parameters_erase _ := rfl
  refusing_erase _ := rfl
  reveal_erase _ _ := rfl
  handles_erase _ _ := rfl
  find?_erase _ _ := rfl
  sizes_erase _ := rfl
  handles_of_reveal _ := ⟨[], rfl⟩
  ask_eq _ _ _ := rfl
  embed_erase _ _ := rfl
  parameters_embed _ _ := rfl
  refusing_embed _ _ := rfl
  reveal_embed _ _ := rfl
  reveal_embed_of_reveal _ h := h
  embed_of_reveal _ h := by
    cases h
    rfl
  sound_embed _ _ := trivial
  constant_eq _ _ _ := rfl
  renew_eq _ _ _ := rfl
  settles_apply _ _ := settles_apply _ _
  apply_subtract a b m _ hm := by
    -- a difference is computed at once, a sum with the negative in two calls
    rw [Stateful.run_bind, run_apply, run_apply]
    show Alike (m.context.compute (.subtract a b), m)
      ((FunctionFactory.apply (.add a b.neg)).run m)
    rw [run_apply]
    show Alike _ (if m.failing.get .add then _ else _)
    rw [if_neg (not_failing hm .add)]
    exact ⟨rfl, rfl⟩
  sound_apply _ _ _ := trivial
  erase_setMemoOn? h := by cases h
  sound_setMemoOn? h := by cases h
  parameters_setFailing _ _ _ := rfl
  reveal_setFailing _ _ _ _ := rfl
  sound_setFailing _ _ _ _ := trivial

/-- A new metered engine refuses nothing. -/
theorem willing_ofContext (e : Engine) : Willing (ofContext e) := by
  intro op
  cases op <;> rfl

end Metered

end FunctionCache
