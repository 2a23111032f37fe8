import FunctionCache.Proofs.Layers.Bottom
import FunctionCache.Proofs.Layers.Cached

/-!
# Everything handed out stands for something

A stack of caches is closed if every function in its tables, every entry of its
memos and its constants stand for a function of the engine. Nothing that is done
to a stack ends that, whatever it stores and whether or not its memos are right.
So a function that has been returned can always be reported on.

* `Closable.Closed` — the property;
* `Closable.Hands` — computations that keep it, and return functions that stand
  for something;
* `Closing` — layers whose computations do.
-/

namespace FunctionCache

open LayeredFactory Erasable Storage

/-- States that hand out functions. -/
class Closable (S : Type) where
  /-- Everything that the state hands out stands for a function of the engine. -/
  Closed : S → Prop

namespace Closable

variable {ε S F α : Type} [LayeredFactory S F] [Closable S]

/-- The computation keeps the state closed and returns a function that stands for something. -/
def Hands (act : ExceptT ε (StateM S) F) : Prop :=
  ∀ s, Closed s → Closed (act.run s).2 ∧
    ∀ f, (act.run s).1 = .ok f → ∃ r, reveal f (act.run s).2 = .ok r

/-- After a computation that keeps the state closed, one that hands out a function does so. -/
theorem Hands.bind {act : ExceptT ε (StateM S) α} {next : α → ExceptT ε (StateM S) F}
    (hact : ∀ s, Closed s → Closed (act.run s).2) (hnext : ∀ a, Hands (next a)) :
    Hands (act >>= next) := by
  intro s hs
  have hclosed := hact s hs
  rw [Stateful.run_bind]
  rcases hrun : act.run s with ⟨e | a, t⟩
  · rw [hrun] at hclosed
    exact ⟨hclosed, fun f hf => by cases hf⟩
  · rw [hrun] at hclosed
    exact hnext a t hclosed

end Closable

open Closable

/-- Layers that stay closed. -/
class Closing (S : Type) (F : outParam Type) [LayeredFactory S F] [Closable S] : Prop where
  extends_constant (c : Constant) (s : S) : Extends s (FunctionFactory.constant c s).2
  extends_apply (op : Operation F) (s : S) : Extends s ((FunctionFactory.apply op).run s).2
  hands_constant (c : Constant) :
    Hands (Action.ofState (FunctionFactory.constant c) : Action S F)
  hands_embed (r : RationalFunction) : Hands (Action.ofState (embed r) : Action S F)
  hands_apply (op : Operation F) : Hands (FunctionFactory.apply op : Action S F)
  hands_renew (f : F) : Hands (renew f : Action S F)
  closed_setMemoOn? {depth : Nat} {on : Bool} {s t : S} :
    setMemoOn? depth on s = some t → Closed s → Closed t
  closed_setFailing (op : Memoized) (on : Bool) {s : S} : Closed s → Closed (setFailing op on s)

open Closing

/-! ## The engine -/

namespace Metered

/-- The engine returns functions that stand for themselves. -/
instance : Closable (Metered Engine) := ⟨fun _ => True⟩

/-- A call changes counts, which no function depends on. -/
theorem extends_apply (op : Operation RationalFunction) (m : Metered Engine) :
    Extends m ((FunctionFactory.apply op).run m).2 := by
  refine ⟨?_, fun hr => hr⟩
  rw [run_apply]
  -- a call changes the counts only
  cases op.memoized? with
  | none => rfl
  | some called =>
    dsimp only
    split_ifs <;> rfl

instance : Closing (Metered Engine) RationalFunction where
  extends_constant _ m := .refl m
  extends_apply := extends_apply
  hands_constant c m _ := ⟨trivial, fun f _ => ⟨f, rfl⟩⟩
  hands_embed r m _ := ⟨trivial, fun f _ => ⟨f, rfl⟩⟩
  hands_apply op m _ := ⟨trivial, fun f _ => ⟨f, rfl⟩⟩
  hands_renew f m _ := ⟨trivial, fun g _ => ⟨g, rfl⟩⟩
  closed_setMemoOn? h _ := by cases h
  closed_setFailing _ _ _ _ := trivial

end Metered

/-! ## Caches -/

namespace Cache

variable {S F : Type} [LayeredFactory S F] [BEq F] [LawfulBEq F] [Hashable F] {c : Cache S F}

/-- Storing an outcome of the layers inside leads to a later state. -/
theorem extends_stored {x : Except Failure F × S} (hext : Extends c.context x.2) :
    Extends c (c.stored x).2 := by
  rcases x with ⟨e | f, s⟩
  · exact extends_withContext hext
  · exact c.extends_intern hext f

/-- Recording a result changes no function. -/
theorem extends_recorded {k : MemoKey} {x : Except Failure Handle × Cache S F}
    (h : Extends c x.2) : Extends c (recorded k x).2 := by
  rcases x with ⟨e | a, c'⟩
  · exact h
  · exact ⟨h.parameters, h.reveal⟩

variable [Closable S]

/-- Tables, memos and constants stand for functions of the engine, through all layers inside. -/
structure Closed (c : Cache S F) : Prop where
  context : Closable.Closed c.context
  revealed {h : Handle} {f : F} : c.table.resolve? h = some f → ∃ r, reveal f c.context = .ok r
  one : ∃ r, reveal c.one c = .ok r
  zero : ∃ r, reveal c.zero c = .ok r
  entries {k : MemoKey} {h : Handle} : c.memos.find? k = some h → ∃ r, reveal h c = .ok r

instance : Closable (Cache S F) := ⟨Closed⟩

/-- A later state is closed if its tables are, since constants and entries keep what they stand for.
-/
theorem Closed.extend (hc : c.Closed) {c' : Cache S F} (hext : Extends c c')
    (hcontext : Closable.Closed c'.context)
    (hrevealed : ∀ {h f}, c'.table.resolve? h = some f → ∃ r, reveal f c'.context = .ok r)
    (hone : c'.one = c.one) (hzero : c'.zero = c.zero) (hmemos : c'.memos = c.memos) :
    c'.Closed where
  context := hcontext
  revealed := hrevealed
  one := hone ▸ hc.one.imp fun _ hr => hext.reveal hr
  zero := hzero ▸ hc.zero.imp fun _ hr => hext.reveal hr
  entries hh := (hc.entries (hmemos ▸ hh)).imp fun _ hr => hext.reveal hr

/-- Look-ups are counted and change no entry. -/
theorem Closed.ask (hc : c.Closed) (k : MemoKey) : Closed { c with memos := c.memos.ask k } where
  context := hc.context
  revealed := hc.revealed
  one := hc.one
  zero := hc.zero
  entries hh := by
    rw [Memos.find?_ask] at hh
    exact hc.entries hh

/-- A handle that stands for something may be recorded, right or wrong. -/
theorem Closed.record (hc : c.Closed) {h : Handle} (hh : ∃ r, reveal h c = .ok r) (k : MemoKey) :
    Closed { c with memos := c.memos.record h k } where
  context := hc.context
  revealed := hc.revealed
  one := hc.one
  zero := hc.zero
  entries {k' h'} hh' := by
    rw [Memos.find?_record] at hh'
    split_ifs at hh' with hk
    · -- the new entry
      cases hh'
      exact hh
    · exact hc.entries hh'

/-- Layers inside that store more take nothing away. -/
theorem Closed.withContext (hc : c.Closed) {s : S} (hs : Closable.Closed s)
    (hext : Extends c.context s) : Closed { c with context := s } := by
  refine hc.extend (extends_withContext hext) hs (fun {h f} hf => ?_) rfl rfl rfl
  exact (hc.revealed hf).imp fun _ hr => hext.reveal hr

/-- What the layers inside return is stored, and its handle stands for it. -/
theorem Closed.stored (hc : c.Closed) {x : Except Failure F × S} (hs : Closable.Closed x.2)
    (hext : Extends c.context x.2) (hf : ∀ f, x.1 = .ok f → ∃ r, reveal f x.2 = .ok r) :
    (c.stored x).2.Closed ∧
      ∀ h, (c.stored x).1 = .ok h → ∃ r, reveal h (c.stored x).2 = .ok r := by
  rcases x with ⟨e | f, s⟩
  · exact ⟨hc.withContext hs hext, fun h hh => by cases hh⟩
  · obtain ⟨r, hr⟩ := hf f rfl
    refine ⟨?_, fun h hh => ?_⟩
    · refine hc.extend (c.extends_intern hext f) hs (fun {h g} hg => ?_) rfl rfl rfl
      rcases Table.resolve?_intern_cases hg with hg | ⟨-, rfl⟩
      · -- stored before
        exact (hc.revealed hg).imp fun _ hr => hext.reveal hr
      · exact ⟨r, hr⟩
    · cases hh
      exact ⟨r, reveal_eq_ok.mpr ⟨f, Table.resolve?_intern _ _, hr⟩⟩

variable [Closing S F]

/-! ### Operations -/

/-- A delegated operation leads to a later state. -/
theorem extends_delegate (op : Operation Handle) (c : Cache S F) :
    Extends c ((delegate op).run c).2 := by
  rw [run_delegate]
  cases op.mapM c.table.resolve with
  | error e => exact .refl c
  | ok op => exact extends_stored (Closing.extends_apply op c.context)

/-- A delegated operation hands out a function that stands for something. -/
theorem hands_delegate (op : Operation Handle) :
    Hands (delegate op : Action (Cache S F) Handle) := by
  intro c hc
  rw [run_delegate]
  cases op.mapM c.table.resolve with
  | error e => exact ⟨hc, fun h hh => by cases hh⟩
  | ok op =>
    obtain ⟨hs, hf⟩ := Closing.hands_apply op c.context (Closed.context hc)
    exact Closed.stored hc hs (Closing.extends_apply op c.context) hf

/-- An operation that is no difference leaves a later state. -/
private theorem extends_apply_of_ne_subtract {op : Operation Handle}
    (hop : ∀ a b, op ≠ .subtract a b) (c : Cache S F) :
    Extends c ((FunctionFactory.apply op).run c).2 := by
  cases hk : op.memoKey? with
  | none =>
    rw [apply_eq_delegate hk hop]
    exact extends_delegate op c
  | some k =>
    rw [run_apply_of_memoKey? hk]
    split
    · -- what has been asked does not matter
      have hasked := extends_delegate op { c with memos := c.memos.ask k }
      cases c.memos.find? k with
      | some h => exact ⟨rfl, id⟩
      | none => exact extends_recorded ⟨hasked.parameters, hasked.reveal⟩
    · exact extends_delegate op c

/-- **Every operation** leads to a later state. -/
theorem extends_apply (op : Operation Handle) (c : Cache S F) :
    Extends c ((FunctionFactory.apply op).run c).2 :=
  apply_invariant (P := fun c' => Extends c c')
    (fun c' _ hop h => h.trans (extends_apply_of_ne_subtract hop c')) op (.refl c)

/-- An operation that is no difference returns a function that stands for something. -/
private theorem hands_apply_of_ne_subtract {op : Operation Handle}
    (hop : ∀ a b, op ≠ .subtract a b) :
    Hands (FunctionFactory.apply op : Action (Cache S F) Handle) := by
  cases hk : op.memoKey? with
  | none =>
    rw [apply_eq_delegate hk hop]
    exact hands_delegate op
  | some k =>
    intro c hc
    rw [run_apply_of_memoKey? hk]
    split
    · have hasked : Closed { c with memos := c.memos.ask k } := Closed.ask hc k
      cases hfound : c.memos.find? k with
      | some h =>
        -- a hit: the entry stands for something
        refine ⟨hasked, fun h' hh' => ?_⟩
        cases hh'
        exact Closed.entries hc hfound
      | none =>
        obtain ⟨hclosed, hreveal⟩ := hands_delegate op _ hasked
        dsimp only
        rcases hrun : (delegate op).run { c with memos := c.memos.ask k } with ⟨e | h, c'⟩
        · rw [hrun] at hclosed
          exact ⟨hclosed, fun h hh => by cases hh⟩
        · -- what was stored is recorded, too
          rw [hrun] at hclosed hreveal
          have hh := hreveal h rfl
          refine ⟨Closed.record hclosed hh k, fun h' hh' => ?_⟩
          cases hh'
          exact hh
    · exact hands_delegate op c hc

/-- **Every operation** that succeeds returns a function that stands for something. -/
theorem hands_apply (op : Operation Handle) :
    Hands (FunctionFactory.apply op : Action (Cache S F) Handle) :=
  apply_induction (fun _ hop => hands_apply_of_ne_subtract hop)
    (fun hact hnext => .bind (fun c hc => (hact c hc).1) hnext) op

instance [Erasable S] [Storage S F] : Closing (Cache S F) Handle where
  extends_constant k c := by
    cases k with
    | one | zero => exact .refl c
    | nan | posInf | negInf | rational q =>
      exact extends_stored (x := (.ok _, _)) (Closing.extends_constant _ c.context)
  extends_apply := extends_apply
  hands_constant k c hc := by
    have hinner := Closing.hands_constant k c.context (Closed.context hc)
    cases k with
    -- the constants that the cache holds
    | one =>
      refine ⟨hc, fun h hh => ?_⟩
      cases hh
      exact Closed.one hc
    | zero =>
      refine ⟨hc, fun h hh => ?_⟩
      cases hh
      exact Closed.zero hc
    | nan | posInf | negInf | rational q =>
      exact Closed.stored hc hinner.1 (Closing.extends_constant _ c.context) hinner.2
  hands_embed r c hc := by
    have hinner := Closing.hands_embed r c.context (Closed.context hc)
    exact Closed.stored hc hinner.1 (.of_embed r c.context) hinner.2
  hands_apply := hands_apply
  hands_renew a c hc := by
    show Closed ((resolve a >>= fun f => Action.ofState (intern f)).run c).2 ∧
      ∀ h, ((resolve a >>= fun f => Action.ofState (intern f)).run c).1 = .ok h →
        ∃ r, reveal h ((resolve a >>= fun f => Action.ofState (intern f)).run c).2 = .ok r
    rw [Stateful.run_bind, run_resolve]
    cases hf : c.table.resolve a with
    | error e => exact ⟨hc, fun h hh => by cases hh⟩
    | ok f =>
      have hr := Closed.revealed hc (Table.resolve_eq_ok.mp hf)
      refine Closed.stored (x := (.ok f, c.context)) hc (Closed.context hc) (.refl _) fun g hg => ?_
      cases hg
      exact hr
  closed_setMemoOn? {depth on c c'} h hc := by
    cases depth with
    | zero =>
      cases h
      exact ⟨hc.context, hc.revealed, hc.one, hc.zero, hc.entries⟩
    | succ depth =>
      obtain ⟨s, hs, h⟩ := Option.bind_eq_some_iff.mp h
      cases h
      exact hc.withContext (Closing.closed_setMemoOn? hs hc.context)
        (.of_erase_eq (erase_setMemoOn? hs).symm)
  closed_setFailing op on {c} hc :=
    hc.withContext (Closing.closed_setFailing op on hc.context) (.of_setFailing op on c.context)

/-! ### A new cache -/

/-- A new cache is closed. -/
theorem closed_ofContext (memoOn : Bool) {s : S} (hs : Closable.Closed s) :
    (ofContext memoOn s : Cache S F).Closed := by
  have hone := Closing.hands_constant .one s hs
  have hzero := Closing.hands_constant .zero _ hone.1
  have hext := Closing.extends_constant .zero (FunctionFactory.constant .one s).2
  obtain ⟨one, hone⟩ := hone.2 _ rfl
  obtain ⟨hclosed, hzero⟩ := hzero
  obtain ⟨zero, hzero⟩ := hzero _ rfl
  have hone' := hext.reveal hone
  refine ⟨hclosed, fun {h f} hf => ?_, ?_, ?_, fun {k h} hh => ?_⟩
  · -- only the two constants are stored
    rcases Table.resolve?_intern_cases hf with hf | ⟨-, rfl⟩
    · rcases Table.resolve?_intern_cases hf with hf | ⟨-, rfl⟩
      · rw [Table.resolve?_empty] at hf
        cases hf
      · exact ⟨one, hone'⟩
    · exact ⟨zero, hzero⟩
  · exact ⟨one, reveal_eq_ok.mpr
      ⟨_, Table.resolve?_intern_of_resolve? (Table.resolve?_intern _ _) _, hone'⟩⟩
  · exact ⟨zero, reveal_eq_ok.mpr ⟨_, Table.resolve?_intern _ _, hzero⟩⟩
  · rw [show (ofContext memoOn s : Cache S F).memos = Memos.empty from rfl, Memos.find?_empty] at hh
    cases hh

end Cache

end FunctionCache
