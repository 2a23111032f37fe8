import FunctionCache.Factory

/-!
# Computations that may fail

How results and states of composed computations come about: sequencing in
`Except` and on a state, and the traversal of the operands of an operation.

* `Failing.bind_eq_ok`, `Failing.lift_eq_ok` — when a computation without state succeeds;
* `Failing.mapM_ite` — a list of computations that fail alike;
* `Stateful.run_bind` — a computation after another one goes on with the state that the first one
  left;
* `Operation.operands`, `Operation.map` — the operands of an operation, and others in their place;
* `Operation.mapM_eq_ok`, `Operation.isOk_mapM` — when each operand can be replaced.
-/

namespace FunctionCache

namespace Failing

variable {ε α β : Type}

/-- Two steps succeed exactly if the first one does, and the second one does on its result. -/
theorem bind_eq_ok {x : Except ε α} {f : α → Except ε β} {b : β} :
    x >>= f = .ok b ↔ ∃ a, x = .ok a ∧ f a = .ok b := by
  cases x <;> simp [bind, Except.bind]

/-- Two parts of a result, computed one after the other. -/
theorem bind₂_eq_ok {γ : Type} {x : Except ε α} {y : Except ε β} {f : α → β → γ} {c : γ} :
    (do return f (← x) (← y)) = .ok c ↔ ∃ a b, x = .ok a ∧ y = .ok b ∧ f a b = c := by
  cases x <;> cases y <;> simp [bind, Except.bind, pure, Except.pure]

@[simp] theorem mapError_ok {ε' : Type} (φ : ε → ε') (a : α) :
    (Except.ok a : Except ε α).mapError φ = .ok a := rfl

@[simp] theorem mapError_error {ε' : Type} (φ : ε → ε') (e : ε) :
    (Except.error e : Except ε α).mapError φ = .error (φ e) := rfl

/-- Faults are failures, and lifting them changes nothing else. -/
theorem lift_eq_ok {x : Except Fault α} {a : α} :
    (liftM x : Except Failure α) = .ok a ↔ x = .ok a := by
  cases x <;> simp [liftM, monadLift, MonadLift.monadLift]

/-- Steps that fail alike: all of them succeed, or the first one that does not ends the whole. -/
theorem mapM_ite {P : α → Prop} [DecidablePred P] {g : α → β} {e : ε} {f : α → Except ε β}
    (hf : ∀ x, f x = if P x then .ok (g x) else .error e) (xs : List α) :
    xs.mapM f = if ∀ x ∈ xs, P x then .ok (xs.map g) else .error e := by
  induction xs with
  | nil => simp [pure, Except.pure]
  | cons x xs ih =>
    rw [List.mapM_cons, ih, hf]
    simp only [List.forall_mem_cons]
    by_cases hx : P x
    · by_cases hxs : ∀ y ∈ xs, P y
      · rw [if_pos hx, if_pos hxs, if_pos ⟨hx, hxs⟩]
        rfl
      · -- a later step fails
        rw [if_pos hx, if_neg hxs, if_neg (mt And.right hxs)]
        rfl
    · -- the first step fails, and nothing else is looked at
      rw [if_neg hx, if_neg (mt And.left hx)]
      rfl

@[simp] theorem pure_eq (a : α) : (pure a : Except ε α) = .ok a := rfl

@[simp] theorem ok_bind (a : α) (f : α → Except ε β) : Except.ok a >>= f = f a := rfl

@[simp] theorem error_bind (e : ε) (f : α → Except ε β) : Except.error e >>= f = .error e := rfl

@[simp] theorem lift_ok (a : α) : (liftM (.ok a : Except Fault α) : Except Failure α) = .ok a :=
  rfl

@[simp] theorem lift_error (e : Fault) :
    (liftM (.error e : Except Fault α) : Except Failure α) = .error (.fault e) := rfl

/-- A change of a result that is computed first is one of the argument of what follows. -/
theorem lift_map_bind {x : Except Fault α} (φ : α → α) (f : α → Except Failure β) :
    liftM (x.map φ) >>= f = liftM x >>= fun a => f (φ a) := by
  cases x <;> rfl

/-- After the same first part, results that differ by `φ` make results that differ by `φ`. -/
theorem lift_bind_map {x : Except Fault α} {f g : α → Except Failure β} {φ : β → β}
    (h : ∀ a, x = .ok a → f a = (g a).map φ) : liftM x >>= f = (liftM x >>= g).map φ := by
  cases x with
  | error e => rfl
  | ok a => exact h a rfl

end Failing

/-! ## Computations on a state -/

namespace Stateful

variable {ε S α β : Type}

@[simp] theorem run_pure (a : α) (s : S) :
    (pure a : ExceptT ε (StateM S) α).run s = (.ok a, s) := rfl

@[simp] theorem run_get (s : S) : (get : ExceptT ε (StateM S) S).run s = (.ok s, s) := rfl

@[simp] theorem run_modify (f : S → S) (s : S) :
    (modify f : ExceptT ε (StateM S) Unit).run s = (.ok (), f s) := rfl

/-- The second computation starts in the state that the first one left, if that succeeded. -/
theorem run_bind (act : ExceptT ε (StateM S) α) (next : α → ExceptT ε (StateM S) β) (s : S) :
    (act >>= next).run s = match act.run s with
      | (.ok a, s') => (next a).run s'
      | (.error e, s') => (.error e, s') := by
  show ExceptT.bindCont next (act.run s).1 (act.run s).2 = _
  rcases act.run s with ⟨_ | _, _⟩ <;> rfl

/-- After a success the second computation is all that is left. -/
theorem run_bind_of_ok {act : ExceptT ε (StateM S) α} {next : α → ExceptT ε (StateM S) β}
    {s s' : S} {a : α} (h : act.run s = (.ok a, s')) :
    (act >>= next).run s = (next a).run s' := by
  rw [run_bind, h]

@[simp] theorem run_ofState (act : StateM S α) (s : S) :
    (Action.ofState act).run s = (.ok (act s).1, (act s).2) := rfl

end Stateful

namespace Operation

variable {F G : Type}

/-- The functions that an operation combines, the left one first. -/
def operands : Operation F → List F
  | parameter _ => []
  | add a b | subtract a b | multiply a b | divide a b => [a, b]
  | negate a | star a | constraint a => [a]

/-- The operation on other operands. -/
def map (f : F → G) : Operation F → Operation G
  | parameter i => parameter i
  | add a b => add (f a) (f b)
  | subtract a b => subtract (f a) (f b)
  | multiply a b => multiply (f a) (f b)
  | divide a b => divide (f a) (f b)
  | negate a => negate (f a)
  | star a => star (f a)
  | constraint a => constraint (f a)

theorem map_id (op : Operation F) : op.map id = op := by
  cases op <;> rfl

/-- Other operands make no difference of what is none. -/
theorem map_ne_subtract {f : F → G} {op : Operation F} (hop : ∀ a b, op ≠ .subtract a b) (a b : G) :
    op.map f ≠ .subtract a b := by
  cases op with
  | subtract x y => exact absurd rfl (hop x y)
  | _ => simp [map]

theorem operands_map (f : F → G) (op : Operation F) :
    (op.map f).operands = op.operands.map f := by
  cases op <;> rfl

theorem memoized?_map (f : F → G) (op : Operation F) : (op.map f).memoized? = op.memoized? := by
  cases op <;> rfl

/-- Replacing operands that have just been replaced is one replacement. -/
theorem mapM_map {ε H : Type} (f : F → G) (g : G → Except ε H) (op : Operation F) :
    (op.map f).mapM g = op.mapM fun a => g (f a) := by
  cases op <;> rfl

/-- A replacement looks at the operands of the operation and at nothing else. -/
theorem mapM_congr {ε : Type} {g g' : F → Except ε G} {op : Operation F}
    (h : ∀ a ∈ op.operands, g a = g' a) : op.mapM g = op.mapM g' := by
  cases op with
  | parameter i => rfl
  | add a b | subtract a b | multiply a b | divide a b =>
    simp only [mapM, h a (by simp [operands]), h b (by simp [operands])]
  | negate a | star a | constraint a => simp only [mapM, h a (by simp [operands])]

/-- A replacement that never fails is a map. -/
theorem mapM_ok {ε : Type} (f : F → G) (op : Operation F) :
    op.mapM (fun a => (.ok (f a) : Except ε G)) = .ok (op.map f) := by
  cases op <;> rfl

/-- **A replacement succeeds** when every operand has a partner, and the new operation is the old
one with the partners in their places. -/
theorem mapM_eq_ok {ε : Type} {g : F → Except ε G} {op : Operation F} {op' : Operation G} :
    op.mapM g = .ok op' ↔ ∃ pairs : Operation (F × G),
      pairs.map Prod.fst = op ∧ pairs.map Prod.snd = op' ∧
        ∀ p ∈ pairs.operands, g p.1 = .ok p.2 := by
  constructor
  · intro h
    cases op with
    | parameter i =>
      cases h
      exact ⟨.parameter i, rfl, rfl, by simp [operands]⟩
    -- the operands are replaced one by one, and each is paired with what replaces it
    | add x y =>
      obtain ⟨x', y', hx, hy, rfl⟩ := Failing.bind₂_eq_ok.mp h
      exact ⟨.add (x, x') (y, y'), rfl, rfl, by simp [operands, hx, hy]⟩
    | subtract x y =>
      obtain ⟨x', y', hx, hy, rfl⟩ := Failing.bind₂_eq_ok.mp h
      exact ⟨.subtract (x, x') (y, y'), rfl, rfl, by simp [operands, hx, hy]⟩
    | multiply x y =>
      obtain ⟨x', y', hx, hy, rfl⟩ := Failing.bind₂_eq_ok.mp h
      exact ⟨.multiply (x, x') (y, y'), rfl, rfl, by simp [operands, hx, hy]⟩
    | divide x y =>
      obtain ⟨x', y', hx, hy, rfl⟩ := Failing.bind₂_eq_ok.mp h
      exact ⟨.divide (x, x') (y, y'), rfl, rfl, by simp [operands, hx, hy]⟩
    | negate x =>
      obtain ⟨x', hx, h⟩ := Failing.bind_eq_ok.mp h
      cases h
      exact ⟨.negate (x, x'), rfl, rfl, by simp [operands, hx]⟩
    | star x =>
      obtain ⟨x', hx, h⟩ := Failing.bind_eq_ok.mp h
      cases h
      exact ⟨.star (x, x'), rfl, rfl, by simp [operands, hx]⟩
    | constraint x =>
      obtain ⟨x', hx, h⟩ := Failing.bind_eq_ok.mp h
      cases h
      exact ⟨.constraint (x, x'), rfl, rfl, by simp [operands, hx]⟩
  · rintro ⟨pairs, rfl, rfl, hpairs⟩
    rw [mapM_map, mapM_congr hpairs, mapM_ok]

/-- Every operand of the new operation replaces one of the old one. -/
theorem exists_operand_of_mapM {ε : Type} {g : F → Except ε G} {op : Operation F}
    {op' : Operation G} (h : op.mapM g = .ok op') {b : G} (hb : b ∈ op'.operands) :
    ∃ a ∈ op.operands, g a = .ok b := by
  obtain ⟨pairs, rfl, rfl, hpairs⟩ := mapM_eq_ok.mp h
  rw [operands_map] at hb
  obtain ⟨p, hp, rfl⟩ := List.mem_map.mp hb
  refine ⟨p.1, ?_, hpairs p hp⟩
  rw [operands_map]
  exact List.mem_map_of_mem hp

/-- The kind of an operation does not depend on its operands. -/
theorem memoized?_of_mapM {ε : Type} {g : F → Except ε G} {op : Operation F} {op' : Operation G}
    (h : op.mapM g = .ok op') : op'.memoized? = op.memoized? := by
  obtain ⟨pairs, rfl, rfl, -⟩ := mapM_eq_ok.mp h
  rw [memoized?_map, memoized?_map]

/-- A replacement makes no difference of what is none. -/
theorem ne_subtract_of_mapM {ε : Type} {g : F → Except ε G} {op : Operation F} {op' : Operation G}
    (h : op.mapM g = .ok op') (hop : ∀ a b, op ≠ .subtract a b) (a b : G) :
    op' ≠ .subtract a b := by
  obtain ⟨pairs, rfl, rfl, -⟩ := mapM_eq_ok.mp h
  refine map_ne_subtract (fun x y hpairs => hop x.1 y.1 ?_) a b
  rw [hpairs]
  rfl

/-- Replacements that succeed in one way succeed in every way that agrees with it. -/
theorem mapM_mono {ε : Type} {g g' : F → Except ε G} {op : Operation F} {op' : Operation G}
    (h : op.mapM g = .ok op') (hg : ∀ a b, g a = .ok b → g' a = .ok b) : op.mapM g' = .ok op' := by
  obtain ⟨pairs, hop, hop', hpairs⟩ := mapM_eq_ok.mp h
  exact mapM_eq_ok.mpr ⟨pairs, hop, hop', fun p hp => hg p.1 p.2 (hpairs p hp)⟩

/-- All operands can be replaced exactly if each of them can. -/
theorem isOk_mapM {ε : Type} (g : F → Except ε G) (op : Operation F) :
    (op.mapM g).isOk = op.operands.all fun a => (g a).isOk := by
  cases op with
  | parameter i => rfl
  | add x y | subtract x y | multiply x y | divide x y =>
    cases hx : g x <;> cases hy : g y <;>
      simp [mapM, operands, hx, hy, Except.isOk, Except.toBool]
  | negate x | star x | constraint x =>
    cases hx : g x <;> simp [mapM, operands, hx, Except.isOk, Except.toBool]

/-- Two replacements one after the other, of which the second one cannot fail after the first. -/
theorem mapM_bind {ε H : Type} {f : F → Except ε G} {g : G → Except ε H}
    (hg : ∀ a b, f a = .ok b → ∃ c, g b = .ok c) (op : Operation F) :
    op.mapM (fun a => f a >>= g) = op.mapM f >>= fun op' => op'.mapM g := by
  -- an operand fails at the first replacement or at none
  have hcases (a : F) : (∃ e, f a = .error e) ∨ ∃ b c, f a = .ok b ∧ g b = .ok c := by
    cases ha : f a with
    | error e => exact Or.inl ⟨e, rfl⟩
    | ok b =>
      obtain ⟨c, hc⟩ := hg a b ha
      exact Or.inr ⟨b, c, rfl, hc⟩
  cases op with
  | parameter i => rfl
  | add x y | subtract x y | multiply x y | divide x y =>
    rcases hcases x with ⟨e, hx⟩ | ⟨x', x'', hx, hx'⟩
    · simp only [mapM, hx, Failing.error_bind]
    · rcases hcases y with ⟨e, hy⟩ | ⟨y', y'', hy, hy'⟩
      · -- the left operand is replaced twice on one side and once on the other before `y` fails
        simp only [mapM, hx, hx', hy, Failing.ok_bind, Failing.error_bind]
      · simp only [mapM, hx, hx', hy, hy', Failing.ok_bind, Failing.pure_eq]
  | negate x | star x | constraint x =>
    rcases hcases x with ⟨e, hx⟩ | ⟨x', x'', hx, hx'⟩
    · simp only [mapM, hx, Failing.error_bind]
    · simp only [mapM, hx, hx', Failing.ok_bind, Failing.pure_eq]

/-- Replacing the operands by look-ups in the state leaves the state as it is. -/
theorem run_mapM {ε S : Type} {f : F → ExceptT ε (StateM S) G} {g : F → Except ε G} {s : S}
    (h : ∀ a, (f a).run s = (g a, s)) (op : Operation F) :
    (op.mapM f).run s = (op.mapM g, s) := by
  cases op with
  | parameter i => rfl
  | add a b | subtract a b | multiply a b | divide a b =>
    cases hga : g a <;> cases hgb : g b <;>
      simp only [Operation.mapM, Stateful.run_bind, Stateful.run_pure, Failing.ok_bind,
        Failing.error_bind, Failing.pure_eq, h, hga, hgb]
  | negate a | star a | constraint a =>
    cases hga : g a <;>
      simp only [Operation.mapM, Stateful.run_bind, Stateful.run_pure, Failing.ok_bind,
        Failing.error_bind, Failing.pure_eq, h, hga]

/-- Changing the partners of all operands changes the operands of the result. -/
theorem mapM_map_ok {ε H : Type} (φ : G → H) (g : F → Except ε G) (op : Operation F) :
    op.mapM (fun a => (g a).map φ) = (op.mapM g).map (·.map φ) := by
  cases op with
  | parameter i => rfl
  | add a b | subtract a b | multiply a b | divide a b =>
    cases hga : g a <;> cases hgb : g b <;> simp [Operation.mapM, hga, hgb, Except.map, map]
  | negate a | star a | constraint a =>
    cases hga : g a <;> simp [Operation.mapM, hga, Except.map, map]

/-- Renaming the errors of a replacement renames the error of the whole. -/
theorem mapM_mapError {ε ε' : Type} (φ : ε → ε') (g : F → Except ε G) (op : Operation F) :
    op.mapM (fun a => (g a).mapError φ) = (op.mapM g).mapError φ := by
  cases op with
  | parameter i => rfl
  | add a b | subtract a b | multiply a b | divide a b =>
    cases hga : g a <;> cases hgb : g b <;>
      simp [Operation.mapM, hga, hgb]
  | negate a | star a | constraint a =>
    cases hga : g a <;> simp [Operation.mapM, hga]

end Operation

end FunctionCache
