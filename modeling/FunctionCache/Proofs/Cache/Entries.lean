import Mathlib.Logic.Relation
import FunctionCache.Proofs.Layers.Bottom
import FunctionCache.Proofs.Layers.Cached

/-!
# What the memos of a cache hold

Whatever has been done to a cache around the engine, each entry of its memos is
a result of the engine: the operands and the result are stored, and the engine
makes the result from the operands, in either order. Calls that fail or break
off, periods without memos and refusals of the engine do not change that, and
nothing changes an entry that is there.

* `Engine.Obtainable` — the functions that the engine can make;
* `CachedEngine.Move` — one change of a cache, with one case for each operation;
* `CachedEngine.EntriesHold` — the memos hold results of the engine;
* `CachedEngine.entries_hold` — in every reachable state they do, and every
  change keeps every entry.
-/

namespace FunctionCache

open LayeredFactory Erasable Storage Transparent

/-- The functions that the engine can make, from polynomials over its parameters on. -/
inductive Engine.Obtainable (e : Engine) : RationalFunction → Prop
  | constant (c : Constant) : Obtainable e (e.constant c)
  | polynomial {p : Polynomial} (hp : p.numVars = e.numVars) : Obtainable e (e.ofPolynomial p)
  | fraction {p q : Polynomial} {f : RationalFunction} (hp : p.numVars = e.numVars)
    (hq : q.numVars = e.numVars) (h : RationalFunction.ofFraction p q = .ok f) : Obtainable e f
  | compute {op : Operation RationalFunction} {f : RationalFunction}
    (hop : ∀ a ∈ op.operands, Obtainable e a) (h : e.compute op = .ok f) : Obtainable e f

/-- Whatever the engine makes is a function of its parameters. -/
theorem Engine.Obtainable.inParameters {e : Engine} {f : RationalFunction} (h : e.Obtainable f) :
    f.InParameters e.numVars := by
  induction h with
  | constant c => exact e.inParameters_constant c
  | polynomial hp => exact RationalFunction.inParameters_ofPolynomial hp
  | fraction hp hq h => exact RationalFunction.inParameters_ofFraction hp hq h
  | compute hop h ih => exact e.inParameters_compute ih h

namespace CachedEngine

/-- One change of a cache. Operations are changes also if they fail or break off, and whether or not
their operands are handles of the cache. -/
inductive Move (e : Engine) : CachedEngine → CachedEngine → Prop
  | constant (k : Constant) (c : CachedEngine) : Move e c (FunctionFactory.constant k c).2
  | apply (op : Operation Handle) (c : CachedEngine) :
    Move e c ((FunctionFactory.apply op).run c).2
  | intern {f : RationalFunction} (hf : e.Obtainable f) (c : CachedEngine) :
    Move e c (Cache.intern f c).2
  | renew (h : Handle) (c : CachedEngine) : Move e c ((LayeredFactory.renew h).run c).2
  | setMemoOn (on : Bool) (c : CachedEngine) : Move e c (c.setMemoOn on)
  | setFailing (op : Memoized) (on : Bool) (c : CachedEngine) :
    Move e c (LayeredFactory.setFailing op on c)

/-- The states of a cache that was made around an engine. -/
def Reachable (e : Engine) (memoOn : Bool) : CachedEngine → Prop :=
  Relation.ReflTransGen (Move e) (.ofContext memoOn (.ofContext e))

/-- Each entry is a result of the engine. -/
structure EntriesHold (e : Engine) (c : CachedEngine) : Prop where
  add {k : PairKey} {h : Handle} : c.memos.add.entries[k]? = some h →
    ∃ f g r, c.table.resolve? k.first = some f ∧ c.table.resolve? k.second = some g ∧
      c.table.resolve? h = some r ∧ e.compute (.add f g) = .ok r ∧ e.compute (.add g f) = .ok r
  multiply {k : PairKey} {h : Handle} : c.memos.multiply.entries[k]? = some h →
    ∃ f g r, c.table.resolve? k.first = some f ∧ c.table.resolve? k.second = some g ∧
      c.table.resolve? h = some r ∧
      e.compute (.multiply f g) = .ok r ∧ e.compute (.multiply g f) = .ok r
  star {a h : Handle} : c.memos.star.entries[a]? = some h →
    ∃ f r, c.table.resolve? a = some f ∧ c.table.resolve? h = some r ∧
      e.compute (.star f) = .ok r

/-! ## What is known of a state -/

/-- In a cache around the engine, the stored function is the one that a handle stands for. -/
theorem reveal_eq_ok_iff {c : CachedEngine} {h : Handle} {r : RationalFunction} :
    reveal h c = .ok r ↔ c.table.resolve? h = some r := by
  rw [Cache.reveal_eq_ok]
  constructor
  · rintro ⟨f, hf, hr⟩
    cases hr
    exact hf
  · intro hr
    exact ⟨r, hr, rfl⟩

/-- The entries of a state that satisfies the invariant. A key does not say which operand came
first, so both orders are read off it. -/
theorem entriesHold_of_faithful {e : Engine} {c : CachedEngine} (hc : c.Faithful)
    (he : engine c = e) : EntriesHold e c where
  add {k h} hh := by
    -- one call with this key: the operands in the order of the key
    have hkey : some (MemoKey.sum (.ofPair k.first k.second)) = some (.sum k) := by
      rw [k.ofPair_first_second]
    have hyields : c.Yields (.add k.first k.second) h := hc.memos hkey hh
    obtain ⟨r, hr, hh⟩ := hyields
    obtain ⟨f, g, hf, hg, hr⟩ := computed_add.mp hr
    have hcomm := RationalFunction.add_comm (hc.inParameters hg) (hc.inParameters hf)
    exact ⟨f, g, r, reveal_eq_ok_iff.mp hf, reveal_eq_ok_iff.mp hg, reveal_eq_ok_iff.mp hh, hr,
      hcomm.trans hr⟩
  multiply {k h} hh := by
    have hkey : some (MemoKey.product (.ofPair k.first k.second)) = some (.product k) := by
      rw [k.ofPair_first_second]
    have hyields : c.Yields (.multiply k.first k.second) h := hc.memos hkey hh
    obtain ⟨r, hr, hh⟩ := hyields
    obtain ⟨f, g, hf, hg, hr⟩ := computed_multiply.mp hr
    have hcomm := RationalFunction.mul_comm (hc.inParameters hg) (hc.inParameters hf)
    exact ⟨f, g, r, reveal_eq_ok_iff.mp hf, reveal_eq_ok_iff.mp hg, reveal_eq_ok_iff.mp hh, hr,
      hcomm.trans hr⟩
  star {a h} hh := by
    have hfound : c.memos.find? (.closure a) = some h := hh
    have hyields : c.Yields (.star a) h := hc.memos rfl hfound
    obtain ⟨r, hr, hh⟩ := hyields
    obtain ⟨f, hf, hr⟩ := computed_star.mp hr
    rw [he] at hr
    exact ⟨f, r, reveal_eq_ok_iff.mp hf, reveal_eq_ok_iff.mp hh, hr⟩

/-! ## What a change keeps -/

/-- Asking for a constant is storing it, also for the two that are there from the beginning. -/
theorem constant_eq_embed (k : Constant) {c : CachedEngine} (hc : c.Faithful) :
    (FunctionFactory.constant k c).2 = (embed ((engine c).constant k) c).2 := by
  rw [constant_eq k hc]

theorem renew_snd (h : Handle) {c : CachedEngine} (hc : c.Faithful) :
    ((renew h).run c).2 = c := by
  rw [renew_eq h hc]

/-- **One change** keeps the invariant, and every handle stands for what it stood for. -/
theorem Move.faithful {e : Engine} {c c' : CachedEngine} (h : Move e c c') (hc : c.Faithful)
    (he : engine c = e) : c'.Faithful ∧ engine c' = e := by
  cases h with
  | constant k =>
    -- storing the constant
    have hin := Engine.inParameters_constant (engine c) k
    rw [constant_eq_embed k hc, (Extends.of_embed _ c).engine]
    exact ⟨sound_embed hc hin, he⟩
  | apply op =>
    rw [(hc.extends_apply op).engine]
    exact ⟨hc.apply op, he⟩
  | intern hf =>
    -- a function of the bottom stands for itself
    refine ⟨hc.intern rfl ?_, he⟩
    rw [show engine c.context = e from he]
    exact hf.inParameters
  | renew h =>
    rw [renew_snd h hc]
    exact ⟨hc, he⟩
  | setMemoOn on => exact ⟨hc.setMemoOn on, he⟩
  | setFailing op on => exact ⟨sound_setFailing (S := CachedEngine) op on hc, he⟩

/-- **One change** keeps every entry of the memos. -/
theorem Move.find? {e : Engine} {c c' : CachedEngine} (h : Move e c c') (hc : c.Faithful)
    {k : MemoKey} {r : Handle} (hk : c.memos.find? k = some r) : c'.memos.find? k = some r := by
  cases h with
  | constant k => rw [constant_eq_embed k hc]; exact hk
  | apply op => exact Cache.find?_apply op hk
  | intern hf => exact hk
  | renew h => rw [renew_snd h hc]; exact hk
  | setMemoOn on => exact hk
  | setFailing op on => exact hk

/-- **Every reachable state** satisfies the invariant, and its engine is the one of the beginning.
-/
theorem Reachable.faithful {e : Engine} {memoOn : Bool} {c : CachedEngine}
    (h : Reachable e memoOn c) : c.Faithful ∧ engine c = e := by
  induction h with
  -- a new cache
  | refl =>
    exact ⟨Cache.faithful_ofContext memoOn trivial,
      congrArg Engine.mk (Cache.parameters_ofContext memoOn trivial)⟩
  -- one change more
  | tail _ hmove ih => exact hmove.faithful ih.1 ih.2

/-- **The memos hold results of the engine** in every state of a cache, for both orders of the
operands, and no change removes or replaces an entry. -/
theorem entries_hold {e : Engine} {memoOn : Bool} {c : CachedEngine} (h : Reachable e memoOn c) :
    EntriesHold e c ∧ ∀ c', Move e c c' → ∀ k r, c.memos.find? k = some r →
      c'.memos.find? k = some r := by
  obtain ⟨hc, he⟩ := h.faithful
  exact ⟨entriesHold_of_faithful hc he, fun c' hmove k r hk => hmove.find? hc hk⟩

/-- A sum that is refused at first and computed when it is called again. -/
theorem entries_hold_after_refusal :
    let e : Engine := .ofNames ["x"]
    let start : CachedEngine := .ofContext true (.ofContext e)
    let sum : Action CachedEngine Handle := FunctionFactory.apply (.add ⟨1⟩ ⟨2⟩)
    let refused := (sum.run (LayeredFactory.setFailing .add true start)).2
    let c := (sum.run (LayeredFactory.setFailing .add false refused)).2
    EntriesHold e c ∧ ∀ c', Move e c c' → ∀ k r, c.memos.find? k = some r →
      c'.memos.find? k = some r := by
  intro e start sum refused c
  -- the call while sums are refused, and the same call afterwards
  have hrefused : Reachable e true refused :=
    (Relation.ReflTransGen.single (.setFailing .add true start)).tail (.apply _ _)
  exact entries_hold ((hrefused.tail (.setFailing .add false refused)).tail (.apply _ _))

end CachedEngine

end FunctionCache
