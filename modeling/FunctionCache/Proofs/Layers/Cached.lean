import FunctionCache.Proofs.Cache.Faithful

/-!
# A cache around transparent layers is transparent

Every law of `Transparent` passes from the layers inside to a cache around them.
A delegated operation stores what the layers inside return, and so does the
reference (`Cache.Faithful.reference_eq`). A remembered handle is the one that storing the
result would return, because nothing is stored twice.

* `Cache.Faithful.settles_apply` — each operation does what its reference does;
* `Cache.Faithful.apply` — each operation keeps the invariant.
-/

namespace FunctionCache

open LayeredFactory Erasable Storage Transparent

namespace Cache

variable {S F : Type} [LayeredFactory S F] [BEq F] [LawfulBEq F] [Hashable F] [Erasable S]

/-! ## Delegated operations -/

section

variable {c : Cache S F}

/-- Outcomes that look alike inside look alike once they are stored. -/
theorem alike_stored {x y : Except Failure F × S} (h : Alike x y) :
    Alike (c.stored x) (c.stored y) := by
  obtain ⟨hresult, hstate⟩ := h
  -- a failure and a success cannot be alike
  rcases x with ⟨_ | f, s⟩ <;> rcases y with ⟨_ | g, s'⟩ <;> cases hresult
  · refine ⟨rfl, ?_⟩
    show ({ c with context := erase s, memoOn := _, memos := _ } : Cache S F) = _
    rw [hstate]
    rfl
  · refine ⟨rfl, ?_⟩
    show ({ c with context := erase s, table := _, memoOn := _, memos := _ } : Cache S F) = _
    rw [hstate]
    rfl

/-- The engine computes on what the resolved operands stand for. -/
theorem Faithful.computed_eq (hc : c.Faithful) (op : Operation Handle) :
    computed op c = match op.mapM c.table.resolve with
      | .ok op => computed op c.context
      | .error e => .error (.fault e) := by
  -- a handle with a function in the table stands for something, so no operand fails late
  have hmapM : op.mapM (reveal · c) =
      op.mapM c.table.resolve >>= fun op' => op'.mapM (reveal · c.context) := by
    refine Operation.mapM_bind (fun h f hf => ?_) op
    obtain ⟨r, hr, -⟩ := hc.revealed (Table.resolve_eq_ok.mp hf)
    exact ⟨r, hr⟩
  unfold computed
  rw [hmapM]
  cases op.mapM c.table.resolve <;> rfl

/-- **The reference of a cache** stores what the reference inside returns. -/
theorem Faithful.reference_eq (hc : c.Faithful) (op : Operation Handle) :
    reference op c = match op.mapM c.table.resolve with
      | .ok op => c.stored (reference op c.context)
      | .error e => (.error (.fault e), c) := by
  rw [reference, hc.computed_eq op]
  cases op.mapM c.table.resolve with
  | error e => rfl
  | ok op' =>
    dsimp only
    rw [reference]
    cases computed op' c.context <;> rfl

variable [Transparent S F]

/-- **A delegated operation** does what its reference does, or is refused inside. -/
theorem Faithful.settles_delegate (hc : c.Faithful) {op : Operation Handle}
    (hop : ∀ a b, op ≠ .subtract a b) : Settles op c ((delegate op).run c) := by
  rw [run_delegate]
  have href := hc.reference_eq op
  cases hop' : op.mapM c.table.resolve with
  -- an operand is missing, for the reference too
  | error e =>
    rw [hop'] at href
    refine Or.inl ?_
    rw [href]
    exact .refl _
  | ok op' =>
    rw [hop'] at href
    rcases settles_apply hc.context (Operation.ne_subtract_of_mapM hop' hop)
      with halike | ⟨m, hm, hrefused, halike⟩
    · -- the layers inside did what their reference does
      refine Or.inl ?_
      rw [href]
      exact alike_stored halike
    · -- the layers inside refused
      rw [Operation.memoized?_of_mapM hop'] at hm
      exact Or.inr ⟨m, hm, hrefused, alike_stored halike⟩

/-- A delegated operation keeps the invariant. -/
theorem Faithful.delegate (hc : c.Faithful) {op : Operation Handle}
    (hop : ∀ a b, op ≠ .subtract a b) : ((delegate op).run c).2.Faithful := by
  rw [run_delegate]
  cases hop' : op.mapM c.table.resolve with
  | error e => exact hc
  | ok op' =>
    have hsettles := settles_apply hc.context (Operation.ne_subtract_of_mapM hop' hop)
    have hcontext := hc.withContext (sound_apply op' hc.context) hsettles.later
    have hreveal := fun {f} => hsettles.reveal_of_ok (f := f)
    have hengine := hsettles.later.engine
    show (c.stored ((FunctionFactory.apply op').run c.context)).2.Faithful
    rcases hrun : (FunctionFactory.apply op').run c.context with ⟨e | f, s⟩
    · -- nothing to store
      rw [hrun] at hcontext
      exact hcontext
    · rw [hrun] at hcontext hreveal hengine
      obtain ⟨r, hr, hf⟩ := hreveal rfl
      refine hcontext.intern hf ?_
      -- the operands are functions of the parameters, so the result is one
      rw [show engine _ = engine c.context from hengine]
      refine inParameters_of_computed hr fun g hg a ha => ?_
      obtain ⟨h, -, hh⟩ := Operation.exists_operand_of_mapM hop' hg
      obtain ⟨a', ha', hin⟩ := hc.revealed (Table.resolve_eq_ok.mp hh)
      rw [ha] at ha'
      cases ha'
      exact hin

end

/-! ## Stored functions -/

/-- A function that a handle stands for is not stored again. -/
theorem embed_of_reveal_eq_ok [Storage S F] {c : Cache S F} (hc : c.Faithful) {h : Handle}
    {r : RationalFunction} (hr : reveal h c = .ok r) : embed r c = (h, c) := by
  obtain ⟨f, hf, hr⟩ := reveal_eq_ok.mp hr
  rw [embed_eq, embed_of_reveal hc.context hr, put]
  dsimp only
  rw [Table.intern_of_resolve? hf]

/-- A cache keeps what is stored in it if the layers inside do. -/
instance [Storage S F] : Storage (Cache S F) Handle where
  -- what is not changed by erasing
  parameters_erase c := parameters_erase c.context
  refusing_erase c := refusing_erase c.context
  reveal_erase h c := by
    show (c.table.resolve h >>= fun f => reveal f (erase c.context)) = _
    simp only [reveal_erase]
    rfl
  handles_erase h c := by
    show (c.table.resolve h >>= fun f =>
      handles f (erase c.context) >>= fun hs => pure (h :: hs)) = _
    simp only [handles_erase]
    rfl
  find?_erase r c := by
    show (find? r (erase c.context) >>= c.table.find?) = _
    rw [find?_erase]
    rfl
  sizes_erase c := by
    show c.size :: sizes (erase c.context) = c.size :: sizes c.context
    rw [sizes_erase]
  handles_of_reveal {h c r} hr := by
    obtain ⟨f, hf, hr⟩ := Failing.bind_eq_ok.mp hr
    obtain ⟨hs, hhs⟩ := handles_of_reveal hr
    refine ⟨h :: hs, ?_⟩
    show (c.table.resolve h >>= fun f => handles f c.context >>= fun hs => pure (h :: hs)) = _
    rw [hf, Failing.ok_bind, hhs]
    rfl
  -- questions
  ask_eq q h c := by
    show (liftM (c.table.resolve h) >>= fun f => FunctionFactory.ask q f c.context) = _
    rw [reveal_eq]
    cases c.table.resolve h with
    | error e => rfl
    | ok f => exact ask_eq q f c.context
  -- storing a function
  embed_erase r c := by
    rw [embed_eq, embed_eq]
    show (erase c).put (embed r (erase c.context)) = _
    rw [embed_erase]
    rfl
  parameters_embed r c := parameters_embed r c.context
  refusing_embed r c := refusing_embed r c.context
  reveal_embed r c :=
    reveal_eq_ok.mpr ⟨_, Table.resolve?_intern _ _, reveal_embed r c.context⟩
  reveal_embed_of_reveal {h c q} r hq :=
    (c.extends_intern (.of_embed r c.context) (embed r c.context).1).reveal hq
  embed_of_reveal hc hr := embed_of_reveal_eq_ok hc hr
  sound_embed {r c} hc hin := by
    have hext := Extends.of_embed r c.context
    have hcontext := hc.withContext (sound_embed hc.context hin) hext
    refine hcontext.intern (reveal_embed r c.context) ?_
    rw [hext.engine]
    exact hin
  -- switches, at this depth or inside
  erase_setMemoOn? {depth on c c'} h := by
    cases depth with
    | zero =>
      cases h
      rfl
    | succ depth =>
      obtain ⟨s, hs, h⟩ := Option.bind_eq_some_iff.mp h
      cases h
      show ({ c with context := erase s, memoOn := _, memos := _ } : Cache S F) = _
      rw [erase_setMemoOn? hs]
      rfl
  sound_setMemoOn? {depth on c c'} h hc := by
    cases depth with
    | zero =>
      cases h
      exact hc.setMemoOn on
    | succ depth =>
      obtain ⟨s, hs, h⟩ := Option.bind_eq_some_iff.mp h
      cases h
      exact hc.withContext (sound_setMemoOn? hs hc.context)
        (.of_erase_eq (erase_setMemoOn? hs).symm)
  parameters_setFailing op on c := parameters_setFailing op on c.context
  reveal_setFailing op on h c := by
    show (c.table.resolve h >>= fun f => reveal f (setFailing op on c.context)) = _
    simp only [reveal_setFailing]
    rfl
  sound_setFailing op on {c} hc :=
    hc.withContext (sound_setFailing op on hc.context) (.of_setFailing op on c.context)

/-! ## Memoized operations -/

variable {c : Cache S F}

/-- A remembered handle is the one that the reference returns. -/
theorem Yields.reference_eq [Storage S F] (hc : c.Faithful) {op : Operation Handle} {h : Handle}
    (hy : c.Yields op h) : reference op c = (.ok h, c) := by
  obtain ⟨r, hr, hh⟩ := hy
  rw [reference, hr]
  dsimp only
  rw [embed_of_reveal_eq_ok hc hh]

/-- The reference does not look at memos. -/
theorem alike_reference_memos (op : Operation Handle) (c : Cache S F) (memos : Memos) :
    Alike (reference op { c with memos }) (reference op c) := by
  have hcomputed : computed op { c with memos } = computed op c := rfl
  unfold reference
  rw [hcomputed]
  cases computed op c <;> exact ⟨rfl, rfl⟩

/-- An operation that is settled from other memos is settled. -/
theorem settles_of_memos {op : Operation Handle} {memos : Memos}
    {x : Except Failure Handle × Cache S F} (h : Settles op { c with memos } x) :
    Settles op c x := by
  rcases h with h | ⟨m, hm, hrefused, h⟩
  · exact Or.inl (h.trans (alike_reference_memos op c memos))
  · exact Or.inr ⟨m, hm, hrefused, h⟩

/-- Recording a result cannot be seen from outside. -/
theorem alike_recorded (k : MemoKey) (x : Except Failure Handle × Cache S F) :
    Alike (recorded k x) x := by
  rcases x with ⟨_ | _, _⟩ <;> exact ⟨rfl, rfl⟩

variable [Transparent S F]

/-- **Each operation of a cache** except the difference does what its reference does. -/
theorem Faithful.settles_apply (hc : c.Faithful) {op : Operation Handle}
    (hop : ∀ a b, op ≠ .subtract a b) : Settles op c ((FunctionFactory.apply op).run c) := by
  cases hk : op.memoKey? with
  | none =>
    rw [apply_eq_delegate hk hop]
    exact hc.settles_delegate hop
  | some k =>
    rw [run_apply_of_memoKey? hk]
    split
    · cases hh : c.memos.find? k with
      | some h =>
        -- hit: the reference would store nothing new
        refine Or.inl ?_
        rw [(hc.memos hk hh).reference_eq hc]
        exact ⟨rfl, rfl⟩
      | none =>
        -- miss
        have hsettles := settles_of_memos ((hc.ask k).settles_delegate hop)
        exact hsettles.of_alike (alike_recorded k _)
    · -- memos off
      exact hc.settles_delegate hop

/-- Hits, misses and delegated operations keep the invariant. -/
private theorem Faithful.apply_of_ne_subtract (hc : c.Faithful) {op : Operation Handle}
    (hop : ∀ a b, op ≠ .subtract a b) : ((FunctionFactory.apply op).run c).2.Faithful := by
  cases hk : op.memoKey? with
  | none =>
    rw [apply_eq_delegate hk hop]
    exact hc.delegate hop
  | some k =>
    rw [run_apply_of_memoKey? hk]
    split
    · cases hh : c.memos.find? k with
      | some h => exact hc.ask k
      | none =>
        -- miss
        have hfaithful := (hc.ask k).delegate hop
        have hsettles := (hc.ask k).settles_delegate hop
        rcases hrun : (Cache.delegate op).run { c with memos := c.memos.ask k } with ⟨e | h, c'⟩
        · rw [hrun] at hfaithful
          exact hfaithful
        · rw [hrun] at hfaithful hsettles
          -- the recorded handle stands for what the engine has just made
          obtain ⟨r, hr, hh⟩ := hsettles.reveal_of_ok rfl
          exact hfaithful.record hk ⟨r, hsettles.later.computed hr, hh⟩
    · -- memos off
      exact hc.delegate hop

/-- **Each operation of a cache** keeps the invariant. -/
theorem Faithful.apply (hc : c.Faithful) (op : Operation Handle) :
    ((FunctionFactory.apply op).run c).2.Faithful :=
  apply_invariant (fun _ _ hop hc => hc.apply_of_ne_subtract hop) op hc

/-- After an operation, every handle stands for what it stood for. -/
theorem Faithful.extends_apply (hc : c.Faithful) (op : Operation Handle) :
    Extends c ((FunctionFactory.apply op).run c).2 := by
  have hboth := apply_invariant (P := fun c' => c'.Faithful ∧ Extends c c')
    (fun c' op hop h =>
      ⟨h.1.apply_of_ne_subtract hop, h.2.trans (h.1.settles_apply hop).later⟩) op
    ⟨hc, .refl c⟩
  exact hboth.2

/-- **A cache around transparent layers is transparent.** -/
instance : Transparent (Cache S F) Handle where
  constant_eq constant {c} hc := by
    have hinner := constant_eq constant hc.context
    cases constant with
    -- the two constants that the cache holds from the start
    | one => exact (embed_of_reveal_eq_ok hc hc.one).symm
    | zero => exact (embed_of_reveal_eq_ok hc hc.zero).symm
    -- the others come from inside
    | nan | posInf | negInf | rational q =>
      show c.put (FunctionFactory.constant _ c.context) = _
      rw [hinner]
      rfl
  renew_eq h {c} hc := by
    show (resolve h >>= fun f => Action.ofState (intern f)).run c = _
    rw [Stateful.run_bind, run_resolve, reveal_eq]
    cases hf : c.table.resolve h with
    | error e => rfl
    | ok f =>
      have hf' := Table.resolve_eq_ok.mp hf
      obtain ⟨r, hr, -⟩ := hc.revealed hf'
      rw [Failing.ok_bind, hr]
      show (Except.ok (c.table.intern f).1, { c with table := (c.table.intern f).2 }) = _
      rw [Table.intern_of_resolve? hf']
      rfl
  settles_apply hc hop := hc.settles_apply hop
  apply_subtract a b := fun _ _ => .refl _
  sound_apply op {_} hc := hc.apply op

/-! ## The cache at the start -/

/-- A new cache holds what is stored when 1 and 0 are. -/
theorem ofContext_eq (memoOn : Bool) {s : S} (hs : Sound s) :
    ofContext memoOn s =
      let one := embed ((engine s).constant .one) s
      let zero := embed ((engine s).constant .zero) one.2
      holding memoOn one.1 zero.1 zero.2 := by
  have hext := Extends.of_embed ((engine s).constant .one) s
  have hone := sound_embed hs (Engine.inParameters_constant (engine s) .one)
  show holding memoOn (FunctionFactory.constant .one s).1
    (FunctionFactory.constant .zero (FunctionFactory.constant .one s).2).1
    (FunctionFactory.constant .zero (FunctionFactory.constant .one s).2).2 = _
  rw [constant_eq .one hs, constant_eq .zero hone, hext.engine]

/-- **A new cache** satisfies the invariant. -/
theorem faithful_ofContext (memoOn : Bool) {s : S} (hs : Sound s) :
    (ofContext memoOn s).Faithful := by
  rw [ofContext_eq memoOn hs]
  have hone := Extends.of_embed ((engine s).constant .one) s
  have hzero := Extends.of_embed ((engine s).constant .zero) (embed ((engine s).constant .one) s).2
  refine faithful_holding memoOn ?_ ?_ ?_
  · -- the layers inside
    refine sound_embed (sound_embed hs (Engine.inParameters_constant _ _)) ?_
    rw [hone.engine]
    exact Engine.inParameters_constant _ _
  · -- one, still stored after zero
    rw [(hone.trans hzero).engine]
    exact hzero.reveal (reveal_embed _ _)
  · -- zero
    rw [(hone.trans hzero).engine]
    exact reveal_embed _ _

theorem parameters_ofContext (memoOn : Bool) {s : S} (hs : Sound s) :
    FunctionFactory.parameters (ofContext memoOn s) = FunctionFactory.parameters s := by
  rw [ofContext_eq memoOn hs]
  exact (parameters_embed _ _).trans (parameters_embed _ _)

/-- A cache refuses only what the bottom refuses. -/
theorem willing_ofContext (memoOn : Bool) {s : S} (hs : Sound s) (hw : Willing s) :
    Willing (ofContext memoOn s) := by
  rw [ofContext_eq memoOn hs]
  exact willing_embed _ (willing_embed _ hw)

/-- What a new cache stores depends neither on memos nor on what the layers inside remember. -/
theorem erase_ofContext (memoOn memoOn' : Bool) {s s' : S} (hs : Sound s) (hs' : Sound s')
    (h : erase s = erase s') :
    erase (ofContext memoOn s) = erase (ofContext memoOn' s') := by
  have hengine : engine s' = engine s := (Extends.of_erase_eq h).engine
  obtain ⟨hone, hone'⟩ := alike_embed ((engine s).constant .one) h
  obtain ⟨hzero, hzero'⟩ := alike_embed ((engine s).constant .zero) hone'
  rw [ofContext_eq memoOn hs, ofContext_eq memoOn' hs', hengine]
  dsimp only
  rw [erase_holding, erase_holding, hone, hzero, hzero']

end Cache

end FunctionCache
