import FunctionCache.Proofs.Cache.Memoization
import FunctionCache.Proofs.Layers.Transparent

/-!
# What a cache may be trusted with

The invariant of a cache around layers of factories: the stored functions stand
for functions of the parameters, and under each key the memos hold the handle
that the operation would return now. The second part needs that sums and
products do not depend on the order of their operands, since their keys do not.

* `Cache.Yields` — a handle stands for the result of an operation;
* `Cache.Faithful` — the invariant;
* `Cache.Yields.of_memoKey?` — what is remembered under a key holds for all
  operations with that key;
* `Cache.Faithful.ask`, `.record`, `.withContext`, `.intern` — the changes that
  operations are made of keep the invariant.
-/

namespace FunctionCache

open LayeredFactory Erasable Storage Transparent

namespace Cache

variable {S F : Type} [LayeredFactory S F] [BEq F] [LawfulBEq F] [Hashable F]

/-- A handle stands for what the function behind it stands for in the layers inside. -/
theorem reveal_eq (h : Handle) (c : Cache S F) :
    reveal h c = c.table.resolve h >>= fun f => reveal f c.context := rfl

/-- The outcome of the layers inside, once the function has been stored in the table. -/
def put (c : Cache S F) (x : F × S) : Handle × Cache S F :=
  ((c.table.intern x.1).1, { c with context := x.2, table := (c.table.intern x.1).2 })

/-- A rational function is stored in the layers inside first, and what they give for it in the
table. -/
theorem embed_eq (r : RationalFunction) (c : Cache S F) : embed r c = c.put (embed r c.context) :=
  rfl

/-- A handle stands for something exactly if it has a function in the table, and that function
stands for something inside. -/
theorem reveal_eq_ok {h : Handle} {c : Cache S F} {r : RationalFunction} :
    reveal h c = .ok r ↔ ∃ f, c.table.resolve? h = some f ∧ reveal f c.context = .ok r := by
  rw [reveal_eq, Failing.bind_eq_ok]
  simp only [Table.resolve_eq_ok]

/-- The handle stands for the result of the operation on what its operands stand for. -/
def Yields (c : Cache S F) (op : Operation Handle) (h : Handle) : Prop :=
  ∃ r, computed op c = .ok r ∧ reveal h c = .ok r

/-- What held before still holds in a later state. -/
theorem Yields.mono {c c' : Cache S F} {op : Operation Handle} {h : Handle} (hext : Extends c c')
    (hy : c.Yields op h) : c'.Yields op h := by
  -- neither the operands nor the result can change their meaning
  obtain ⟨r, hr, hh⟩ := hy
  exact ⟨r, hext.computed hr, hext.reveal hh⟩

/-- A cache inside of which a function is stored, and in the table of which it is stored too. -/
theorem extends_intern (c : Cache S F) {s : S} (hext : Extends c.context s) (f : F) :
    Extends c { c with context := s, table := (c.table.intern f).2 } := by
  refine ⟨hext.parameters, fun {h r} hr => ?_⟩
  obtain ⟨g, hg, hr⟩ := reveal_eq_ok.mp hr
  exact reveal_eq_ok.mpr ⟨g, Table.resolve?_intern_of_resolve? hg f, hext.reveal hr⟩

/-- A cache inside of which something is stored: what the table holds keeps its meaning. -/
theorem extends_withContext {c : Cache S F} {s : S} (hext : Extends c.context s) :
    Extends c { c with context := s } := by
  refine ⟨hext.parameters, fun {h r} hr => ?_⟩
  obtain ⟨f, hf, hr⟩ := reveal_eq_ok.mp hr
  exact reveal_eq_ok.mpr ⟨f, hf, hext.reveal hr⟩

variable [Erasable S]

/-- **The invariant of a cache**: the handles stand for functions of the parameters, and everything
remembered is what would be computed now. -/
structure Faithful (c : Cache S F) : Prop where
  context : Sound c.context
  -- stored functions stand for something
  revealed {h : Handle} {f : F} : c.table.resolve? h = some f →
    ∃ r, reveal f c.context = .ok r ∧ r.InParameters (engine c.context).numVars
  one : reveal c.one c = .ok ((engine c.context).constant .one)
  zero : reveal c.zero c = .ok ((engine c.context).constant .zero)
  -- for every operation that has the key, not only the recorded one
  memos {op : Operation Handle} {k : MemoKey} {h : Handle} :
    op.memoKey? = some k → c.memos.find? k = some h → c.Yields op h

/-- Erasing a cache empties its memos, switches them off, and erases the layers inside. -/
instance : Erasable (Cache S F) where
  erase c := { c with context := erase c.context, memoOn := false, memos := .empty }
  Sound := Faithful
  refusing c := refusing c.context

/-! ## Operations in another order -/

/-- Every handle stands for a function of the parameters. -/
theorem Faithful.inParameters {c : Cache S F} (hc : c.Faithful) {h : Handle} {r : RationalFunction}
    (hr : reveal h c = .ok r) : r.InParameters (engine c).numVars := by
  obtain ⟨f, hf, hr⟩ := reveal_eq_ok.mp hr
  obtain ⟨q, hq, hin⟩ := hc.revealed hf
  rw [hr] at hq
  cases hq
  exact hin

/-- Operations with the same key have the same result. -/
theorem Yields.of_memoKey? {c : Cache S F} (hc : c.Faithful) {op op' : Operation Handle}
    {k : MemoKey} {h : Handle} (hk : op.memoKey? = some k) (hk' : op'.memoKey? = some k)
    (hy : c.Yields op h) : c.Yields op' h := by
  obtain ⟨r, hr, hh⟩ := hy
  refine ⟨r, ?_, hh⟩
  -- only sums and products have operands that can be exchanged
  cases op with
  | parameter | subtract | divide | negate | constraint => cases hk
  | star a =>
    cases hk
    cases op' <;> cases hk'
    exact hr
  | add a b =>
    cases hk
    cases op' with
    | parameter | subtract | multiply | divide | negate | star | constraint => cases hk'
    | add a' b' =>
      have hpair := MemoKey.sum.inj (Option.some.inj hk')
      rcases PairKey.ofPair_eq_iff.mp hpair with ⟨rfl, rfl⟩ | ⟨rfl, rfl⟩
      · -- the same operands
        exact hr
      · -- the operands in the other order
        obtain ⟨x, y, hx, hy, hr⟩ := computed_add.mp hr
        have hcomm := RationalFunction.add_comm (hc.inParameters hy) (hc.inParameters hx)
        exact computed_add.mpr ⟨y, x, hy, hx, hcomm.trans hr⟩
  | multiply a b =>
    cases hk
    cases op' with
    | parameter | add | subtract | divide | negate | star | constraint => cases hk'
    | multiply a' b' =>
      have hpair := MemoKey.product.inj (Option.some.inj hk')
      rcases PairKey.ofPair_eq_iff.mp hpair with ⟨rfl, rfl⟩ | ⟨rfl, rfl⟩
      · -- the same operands
        exact hr
      · -- the operands in the other order
        obtain ⟨x, y, hx, hy, hr⟩ := computed_multiply.mp hr
        have hcomm := RationalFunction.mul_comm (hc.inParameters hy) (hc.inParameters hx)
        exact computed_multiply.mpr ⟨y, x, hy, hx, hcomm.trans hr⟩

/-! ## Changes that keep the invariant -/

namespace Faithful

variable {c : Cache S F}

theorem setMemoOn (hc : c.Faithful) (on : Bool) : (c.setMemoOn on).Faithful :=
  ⟨hc.context, hc.revealed, hc.one, hc.zero, hc.memos⟩

/-- Look-ups are counted and change no entry. -/
theorem ask (hc : c.Faithful) (k : MemoKey) :
    Faithful { c with memos := c.memos.ask k } where
  context := hc.context
  revealed := hc.revealed
  one := hc.one
  zero := hc.zero
  memos hk hh := by
    rw [Memos.find?_ask] at hh
    exact hc.memos hk hh

/-- A result may be remembered under a key if one operation with this key has it. -/
theorem record (hc : c.Faithful) {op : Operation Handle} {k : MemoKey} {h : Handle}
    (hk : op.memoKey? = some k) (hy : c.Yields op h) :
    Faithful { c with memos := c.memos.record h k } where
  context := hc.context
  revealed := hc.revealed
  one := hc.one
  zero := hc.zero
  memos {op' k' h'} hk' hh' := by
    rw [Memos.find?_record] at hh'
    split_ifs at hh' with hkk
    · -- the recorded key
      cases hh'
      subst hkk
      exact Yields.of_memoKey? hc hk hk' hy
    · -- another key
      exact hc.memos hk' hh'

/-- Layers inside that store more do not falsify anything. -/
theorem withContext (hc : c.Faithful) {s : S} (hs : Sound s) (hext : Extends c.context s) :
    Faithful { c with context := s } := by
  have hextends := extends_withContext hext
  refine ⟨hs, fun {h f} hf => ?_, ?_, ?_, fun hk hh => (hc.memos hk hh).mono hextends⟩
  · obtain ⟨r, hr, hin⟩ := hc.revealed hf
    refine ⟨r, hext.reveal hr, ?_⟩
    rw [hext.engine]
    exact hin
  · -- the constants are those of the same engine
    show reveal c.one _ = .ok ((engine s).constant .one)
    rw [hext.engine]
    exact hextends.reveal hc.one
  · show reveal c.zero _ = .ok ((engine s).constant .zero)
    rw [hext.engine]
    exact hextends.reveal hc.zero

/-- A function of the parameters may be stored. -/
theorem intern (hc : c.Faithful) {f : F} {r : RationalFunction}
    (hr : reveal f c.context = .ok r) (hin : r.InParameters (engine c.context).numVars) :
    Faithful { c with table := (c.table.intern f).2 } := by
  have hextends := c.extends_intern (.refl c.context) f
  refine ⟨hc.context, fun {h g} hg => ?_, hextends.reveal hc.one, hextends.reveal hc.zero,
    fun hk hh => (hc.memos hk hh).mono hextends⟩
  rcases Table.resolve?_intern_cases hg with hg | ⟨-, rfl⟩
  · -- stored before
    exact hc.revealed hg
  · -- the new function
    exact ⟨r, hr, hin⟩

end Faithful

/-! ## The cache at the start -/

/-- A cache that holds two functions, as 1 and 0, and nothing else. -/
def holding (memoOn : Bool) (one zero : F) (context : S) : Cache S F where
  context
  table := ((Table.empty.intern one).2.intern zero).2
  one := (Table.empty.intern one).1
  zero := ((Table.empty.intern one).2.intern zero).1
  memoOn
  memos := .empty

theorem erase_holding (memoOn : Bool) (one zero : F) (s : S) :
    erase (holding memoOn one zero s) = holding false one zero (erase s) := rfl

/-- A new cache remembers nothing, so only its two constants have to be right. -/
theorem faithful_holding (memoOn : Bool) {one zero : F} {s : S} (hs : Sound s)
    (hone : reveal one s = .ok ((engine s).constant .one))
    (hzero : reveal zero s = .ok ((engine s).constant .zero)) :
    (holding memoOn one zero s).Faithful where
  context := hs
  revealed {h f} hf := by
    -- the table holds the two constants and nothing else
    rcases Table.resolve?_intern_cases hf with hf | ⟨-, rfl⟩
    · rcases Table.resolve?_intern_cases hf with hf | ⟨-, rfl⟩
      · rw [Table.resolve?_empty] at hf
        cases hf
      · exact ⟨_, hone, Engine.inParameters_constant _ _⟩
    · exact ⟨_, hzero, Engine.inParameters_constant _ _⟩
  one := reveal_eq_ok.mpr
    ⟨one, Table.resolve?_intern_of_resolve? (Table.resolve?_intern _ _) _, hone⟩
  zero := reveal_eq_ok.mpr ⟨zero, Table.resolve?_intern _ _, hzero⟩
  memos hk hh := by
    rw [show (holding memoOn one zero s).memos = Memos.empty from rfl, Memos.find?_empty] at hh
    cases hh

end Cache

end FunctionCache
