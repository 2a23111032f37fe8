import FunctionCache.Proofs.Layers.Bottom
import FunctionCache.Proofs.Layers.Cached

/-!
# Efforts that leave nothing

An operation that fails may have asked memos in vain and called the engine. No
table and no entry of a memo shows it: the state afterwards is the one before
with more misses and more calls. From then on the two states do the same.

* `Counting.Spent` — the second state is the first one after such efforts;
* `Counting.Blind` — computations that do the same in both states;
* `Frugal` — layers whose computations are all blind, and whose operations leave
  a spent state when they fail. Only a difference can leave more, its negated
  second operand.

Nothing is asked of the states: the laws hold whether or not what a memo holds
is true.
-/

namespace FunctionCache

open LayeredFactory

/-- States that count what they do. -/
class Counting (S : Type) where
  /-- The second state is the first one, with more misses and more calls of the engine or not. -/
  Spent : S → S → Prop
  refl (s : S) : Spent s s
  trans {s t u : S} : Spent s t → Spent t u → Spent s u

namespace Counting

variable {ε S α β : Type} [Counting S]

/-- The second outcome is the first one in a spent state. -/
def Beside (x y : α × S) : Prop := y.1 = x.1 ∧ Spent x.2 y.2

/-- The computation does the same in a spent state. -/
def Blind (act : ExceptT ε (StateM S) α) : Prop :=
  ∀ s t, Spent s t → Beside (act.run s) (act.run t)

namespace Blind

theorem pure (a : α) : Blind (Pure.pure a : ExceptT ε (StateM S) α) := fun _ _ h => ⟨rfl, h⟩

/-- Computations in sequence are blind if each of them is. -/
theorem bind {act : ExceptT ε (StateM S) α} {next : α → ExceptT ε (StateM S) β}
    (hact : Blind act) (hnext : ∀ a, Blind (next a)) : Blind (act >>= next) := by
  intro s t hst
  obtain ⟨hresult, hstate⟩ := hact s t hst
  rw [Stateful.run_bind, Stateful.run_bind]
  rcases hs : act.run s with ⟨x, s'⟩
  rcases ht : act.run t with ⟨y, t'⟩
  rw [hs, ht] at hresult hstate
  cases hresult
  -- the first results are the same, so both go on or neither does
  cases x with
  | error e => exact ⟨rfl, hstate⟩
  | ok a => exact hnext a s' t' hstate

end Blind

end Counting

open Counting

/-- The report of a cache without its misses. -/
def Statistics.withoutMisses (s : Statistics) : Statistics where
  functions := s.functions
  add := { s.add with misses := 0 }
  multiply := { s.multiply with misses := 0 }
  star := { s.star with misses := 0 }

/-- Layers in which efforts that come to nothing leave nothing but their counts. -/
class Frugal (S : Type) (F : outParam Type) [LayeredFactory S F] [Counting S] : Prop where
  -- looks at the state see neither misses nor calls
  parameters_eq {s t : S} : Spent s t → FunctionFactory.parameters t = FunctionFactory.parameters s
  reveal_eq (f : F) {s t : S} : Spent s t → reveal f t = reveal f s
  handles_eq (f : F) {s t : S} : Spent s t → handles f t = handles f s
  find?_eq (r : RationalFunction) {s t : S} : Spent s t → find? r t = find? r s
  ofHandle?_eq (h : Handle) {s t : S} : Spent s t → ofHandle? h t = ofHandle? h s
  ask_eq {α : Type} (q : Query α) (f : F) {s t : S} :
    Spent s t → FunctionFactory.ask q f t = FunctionFactory.ask q f s
  reports_eq {s t : S} : Spent s t →
    ((reports t).map fun r => (r.1, r.2.withoutMisses)) =
      (reports s).map fun r => (r.1, r.2.withoutMisses)
  -- changes
  blind_constant (c : Constant) :
    Blind (Action.ofState (FunctionFactory.constant c) : Action S F)
  blind_embed (r : RationalFunction) : Blind (Action.ofState (embed r) : Action S F)
  blind_apply (op : Operation F) : Blind (FunctionFactory.apply op : Action S F)
  blind_renew (f : F) : Blind (renew f : Action S F)
  rel_setMemoOn? (depth : Nat) (on : Bool) {s t : S} :
    Spent s t → Option.Rel Spent (setMemoOn? depth on s) (setMemoOn? depth on t)
  spent_setFailing (op : Memoized) (on : Bool) {s t : S} :
    Spent s t → Spent (setFailing op on s) (setFailing op on t)
  -- failures
  spent_apply {op : Operation F} {s : S} {e : Failure} : (∀ a b, op ≠ .subtract a b) →
    ((FunctionFactory.apply op).run s).1 = .error e → Spent s ((FunctionFactory.apply op).run s).2
  spent_renew {f : F} {s : S} {e : Failure} :
    ((renew f).run s).1 = .error e → Spent s ((renew f).run s).2
  -- a negation that succeeds has stored the negative function, and nothing else has changed
  negate_of_ok {f g : F} {s : S} : ((FunctionFactory.apply (.negate f)).run s).1 = .ok g →
    ∃ r, reveal f s = .ok r ∧
      (FunctionFactory.apply (.negate f)).run s = (.ok (embed r.neg s).1, (embed r.neg s).2)

open Frugal

/-! ## The engine -/

namespace Metered

/-- Nothing but the calls has changed, and those have at most grown. -/
structure Spent {S : Type} (m m' : Metered S) : Prop where
  context : m'.context = m.context
  failing : m'.failing = m.failing
  calls (op : Memoized) : m.calls.get op ≤ m'.calls.get op

instance : Counting (Metered Engine) where
  Spent := Spent
  refl _ := ⟨rfl, rfl, fun _ => Nat.le_refl _⟩
  trans h h' := ⟨h'.context.trans h.context, h'.failing.trans h.failing, fun op =>
    Nat.le_trans (h.calls op) (h'.calls op)⟩

variable {m m' : Metered Engine}

/-- Counting the same call on both sides. -/
theorem Spent.count (h : m.Spent m') (op : Memoized) : (m.count op).Spent (m'.count op) := by
  refine ⟨h.context, h.failing, fun op' => ?_⟩
  have hcalls := h.calls op'
  cases op <;> cases op' <;> simp_all [Metered.count, Tally.modify, Tally.get]

theorem spent_count (op : Memoized) (m : Metered Engine) : m.Spent (m.count op) := by
  refine ⟨rfl, rfl, fun op' => ?_⟩
  cases op <;> cases op' <;> simp [Metered.count, Tally.modify, Tally.get]

/-- The engine does not look at its counts. -/
theorem blind_apply (op : Operation RationalFunction) :
    Blind (FunctionFactory.apply op : Action (Metered Engine) RationalFunction) := by
  intro m m' h
  rw [run_apply, run_apply]
  cases op.memoized? with
  | none =>
    refine ⟨?_, h⟩
    show m'.context.compute op = m.context.compute op
    rw [h.context]
  | some called =>
    dsimp only
    rw [h.failing, h.context]
    -- both refuse the call, or neither does
    split_ifs
    · exact ⟨rfl, h.count called⟩
    · exact ⟨rfl, h.count called⟩

/-- Whatever comes of an operation, it has at most been counted. -/
theorem spent_apply (op : Operation RationalFunction) (m : Metered Engine) :
    m.Spent ((FunctionFactory.apply op).run m).2 := by
  rw [run_apply]
  cases op.memoized? with
  | none => exact ⟨rfl, rfl, fun _ => Nat.le_refl _⟩
  | some called =>
    dsimp only
    split_ifs
    · exact spent_count called m
    · exact spent_count called m

instance : Frugal (Metered Engine) RationalFunction where
  parameters_eq {m m'} h := congrArg Engine.parameters h.context
  reveal_eq _ _ _ _ := rfl
  handles_eq _ _ _ _ := rfl
  find?_eq _ _ _ _ := rfl
  ofHandle?_eq _ _ _ _ := rfl
  ask_eq {α} q f {m m'} h := by
    show FunctionFactory.ask q f m'.context = FunctionFactory.ask q f m.context
    rw [h.context]
  reports_eq _ := rfl
  blind_constant c m m' h := by
    refine ⟨?_, h⟩
    show Except.ok (m'.context.constant c) = Except.ok (m.context.constant c)
    rw [h.context]
  blind_embed r m m' h := ⟨rfl, h⟩
  blind_apply := blind_apply
  blind_renew f m m' h := ⟨rfl, h⟩
  rel_setMemoOn? _ _ _ _ _ := .none
  spent_setFailing op on {m m'} h := by
    refine ⟨h.context, ?_, h.calls⟩
    exact congrArg (·.modify op fun _ => on) h.failing
  spent_apply {op m e} _ _ := spent_apply op m
  spent_renew h := by cases h
  negate_of_ok {f g m} _ := ⟨f, rfl, rfl⟩

end Metered

/-! ## Memos -/

/-- Nothing but the misses has changed, and those have at most grown. -/
structure Memo.Spent {κ : Type} [BEq κ] [Hashable κ] (m m' : Memo κ) : Prop where
  entries : m'.entries = m.entries
  hits : m'.hits = m.hits
  misses : m.misses ≤ m'.misses

namespace Memo

variable {κ : Type} [BEq κ] [Hashable κ]

/-- The same look-up on both sides finds the same, since the entries are the same. -/
theorem Spent.get {m m' : Memo κ} (h : m.Spent m') (k : κ) : (m.get k).2.Spent (m'.get k).2 := by
  obtain ⟨hentries, hhits, hmisses⟩ := h
  unfold Memo.get
  rw [hentries]
  cases m.entries[k]? with
  | some r => exact ⟨rfl, congrArg (· + 1) hhits, hmisses⟩
  | none => exact ⟨rfl, hhits, Nat.succ_le_succ hmisses⟩

/-- A look-up that finds nothing is an effort. -/
theorem spent_get {m : Memo κ} {k : κ} (hk : m.entries[k]? = none) : m.Spent (m.get k).2 := by
  unfold Memo.get
  rw [hk]
  exact ⟨rfl, rfl, Nat.le_succ _⟩

theorem Spent.insert {m m' : Memo κ} (h : m.Spent m') (k : κ) (r : Handle) :
    (m.insert k r).Spent (m'.insert k r) :=
  ⟨congrArg (·.insert k r) h.entries, h.hits, h.misses⟩

theorem Spent.refl (m : Memo κ) : m.Spent m := ⟨rfl, rfl, Nat.le_refl _⟩

theorem Spent.trans {x y z : Memo κ} (h : x.Spent y) (h' : y.Spent z) : x.Spent z :=
  ⟨h'.entries.trans h.entries, h'.hits.trans h.hits, Nat.le_trans h.misses h'.misses⟩

/-- Without the misses, the counts are the same. -/
theorem Spent.counts_eq {m m' : Memo κ} (h : m.Spent m') :
    { m'.counts with misses := 0 } = { m.counts with misses := 0 } := by
  unfold Memo.counts Memo.size
  rw [h.entries, h.hits]

end Memo

namespace Memos

/-- Nothing but the misses has changed, and those have at most grown. -/
structure Spent (x y : Memos) : Prop where
  add : x.add.Spent y.add
  multiply : x.multiply.Spent y.multiply
  star : x.star.Spent y.star

variable {x y z : Memos}

theorem Spent.refl (x : Memos) : x.Spent x := ⟨.refl _, .refl _, .refl _⟩

theorem Spent.trans (h : x.Spent y) (h' : y.Spent z) : x.Spent z :=
  ⟨h.add.trans h'.add, h.multiply.trans h'.multiply, h.star.trans h'.star⟩

/-- The entries are the same. -/
theorem Spent.find?_eq (h : x.Spent y) (k : MemoKey) : y.find? k = x.find? k := by
  cases k with
  | sum k => exact congrArg (·[k]?) h.add.entries
  | product k => exact congrArg (·[k]?) h.multiply.entries
  | closure a => exact congrArg (·[a]?) h.star.entries

/-- The same look-up on both sides. -/
theorem Spent.ask (h : x.Spent y) (k : MemoKey) : (x.ask k).Spent (y.ask k) := by
  cases k with
  | sum k => exact ⟨h.add.get k, h.multiply, h.star⟩
  | product k => exact ⟨h.add, h.multiply.get k, h.star⟩
  | closure a => exact ⟨h.add, h.multiply, h.star.get a⟩

/-- A vain look-up is a miss. -/
theorem spent_ask {k : MemoKey} (hk : x.find? k = none) : x.Spent (x.ask k) := by
  cases k with
  | sum k => exact ⟨Memo.spent_get hk, .refl _, .refl _⟩
  | product k => exact ⟨.refl _, Memo.spent_get hk, .refl _⟩
  | closure a => exact ⟨.refl _, .refl _, Memo.spent_get hk⟩

/-- The same entry on both sides. -/
theorem Spent.record (h : x.Spent y) (r : Handle) (k : MemoKey) :
    (x.record r k).Spent (y.record r k) := by
  cases k with
  | sum k => exact ⟨h.add.insert k r, h.multiply, h.star⟩
  | product k => exact ⟨h.add, h.multiply.insert k r, h.star⟩
  | closure a => exact ⟨h.add, h.multiply, h.star.insert a r⟩

end Memos

/-! ## Caches -/

namespace Cache

section

variable {S F : Type} [BEq F] [Hashable F] [Counting S]

/-- The table and all entries of the memos are the same, and so are the layers inside but for their
counts. -/
structure Spent (c c' : Cache S F) : Prop where
  context : Counting.Spent c.context c'.context
  table : c'.table = c.table
  one : c'.one = c.one
  zero : c'.zero = c.zero
  memoOn : c'.memoOn = c.memoOn
  memos : c.memos.Spent c'.memos

theorem Spent.refl (c : Cache S F) : c.Spent c :=
  ⟨Counting.refl c.context, rfl, rfl, rfl, rfl, .refl _⟩

theorem Spent.trans {c c' c'' : Cache S F} (h : c.Spent c') (h' : c'.Spent c'') : c.Spent c'' :=
  ⟨Counting.trans h.context h'.context, h'.table.trans h.table, h'.one.trans h.one,
    h'.zero.trans h.zero, h'.memoOn.trans h.memoOn, h.memos.trans h'.memos⟩

instance : Counting (Cache S F) := ⟨Spent, Spent.refl, Spent.trans⟩

variable {c c' : Cache S F}

/-- A spent state, written down in terms of the state before. -/
theorem Spent.exists_eq (h : c.Spent c') : ∃ s memos, Counting.Spent c.context s ∧
    c.memos.Spent memos ∧ c' = { c with context := s, memos } := by
  obtain ⟨hcontext, htable, hone, hzero, hmemoOn, hmemos⟩ := h
  rcases c' with ⟨s, table, one, zero, memoOn, memos⟩
  cases htable
  cases hone
  cases hzero
  cases hmemoOn
  exact ⟨s, memos, hcontext, hmemos, rfl⟩

theorem Spent.withMemos {x y : Memos} (h : c.Spent c') (hxy : x.Spent y) :
    Spent { c with memos := x } { c' with memos := y } :=
  ⟨h.context, h.table, h.one, h.zero, h.memoOn, hxy⟩

end

section

variable {S F : Type} [BEq F] [LawfulBEq F] [Hashable F] [Counting S] {c c' : Cache S F}

/-- The same outcome inside is stored under the same handle. -/
theorem Spent.stored {x y : Except Failure F × S} (h : c.Spent c') (hxy : Beside x y) :
    Beside (c.stored x) (c'.stored y) := by
  obtain ⟨hresult, hstate⟩ := hxy
  rcases x with ⟨_ | f, s⟩ <;> rcases y with ⟨_ | g, t⟩ <;> cases hresult
  · -- nothing to store
    exact ⟨rfl, hstate, h.table, h.one, h.zero, h.memoOn, h.memos⟩
  · refine ⟨?_, hstate, ?_, h.one, h.zero, h.memoOn, h.memos⟩
    · show Except.ok (c'.table.intern f).1 = Except.ok (c.table.intern f).1
      rw [h.table]
    · show (c'.table.intern f).2 = (c.table.intern f).2
      rw [h.table]

end

variable {S F : Type} [BEq F] [Hashable F] [Counting S] {c c' : Cache S F}

/-- The same outcome is recorded on both sides. -/
theorem beside_recorded (k : MemoKey) {x y : Except Failure Handle × Cache S F}
    (h : Beside x y) : Beside (recorded k x) (recorded k y) := by
  obtain ⟨hresult, hstate⟩ := h
  rcases x with ⟨_ | a, c⟩ <;> rcases y with ⟨_ | b, c'⟩ <;> cases hresult
  · exact ⟨rfl, hstate⟩
  · exact ⟨rfl, Spent.withMemos hstate (hstate.memos.record a k)⟩

variable [LayeredFactory S F] [Frugal S F]

variable [LawfulBEq F]

/-! ### Operations in a spent state -/

/-- The tables are the same, so the operands are, and the layers inside do the same with them. -/
theorem blind_delegate (op : Operation Handle) :
    Blind (delegate op : Action (Cache S F) Handle) := by
  intro c c' h
  rw [run_delegate, run_delegate, h.table]
  cases op.mapM c.table.resolve with
  | error e => exact ⟨rfl, h⟩
  | ok op => exact h.stored (Frugal.blind_apply op _ _ h.context)

/-- Any operation but the difference. -/
private theorem blind_apply_of_ne_subtract {op : Operation Handle}
    (hop : ∀ a b, op ≠ .subtract a b) :
    Blind (FunctionFactory.apply op : Action (Cache S F) Handle) := by
  cases hk : op.memoKey? with
  | none =>
    rw [apply_eq_delegate hk hop]
    exact blind_delegate op
  | some k =>
    intro c c' h
    -- both the look-up and what follows it
    have hasked := h.withMemos (h.memos.ask k)
    have hdelegate := blind_delegate op c c' h
    obtain ⟨s, memos, -, hmemos, rfl⟩ := h.exists_eq
    rw [run_apply_of_memoKey? hk, run_apply_of_memoKey? hk]
    dsimp only
    rw [hmemos.find?_eq]
    split
    · -- both states have the entry, or neither has
      cases c.memos.find? k with
      | some r => exact ⟨rfl, hasked⟩
      | none => exact beside_recorded k (blind_delegate op _ _ hasked)
    · exact hdelegate

/-- **Every operation** does the same in a spent state. -/
theorem blind_apply (op : Operation Handle) :
    Blind (FunctionFactory.apply op : Action (Cache S F) Handle) :=
  apply_induction (fun _ hop => blind_apply_of_ne_subtract hop) Blind.bind op

/-! ### Operations that fail -/

/-- A delegated operation that fails has stored nothing. -/
theorem spent_delegate {op : Operation Handle} {e : Failure} (hop : ∀ a b, op ≠ .subtract a b)
    (he : ((delegate op).run c).1 = .error e) : c.Spent ((delegate op).run c).2 := by
  rw [run_delegate] at he ⊢
  cases hop' : op.mapM c.table.resolve with
  -- a handle without a function
  | error e => exact .refl c
  | ok op' =>
    rw [hop'] at he
    dsimp only at he
    have hinner (e : Failure) := Frugal.spent_apply (s := c.context) (e := e)
      (Operation.ne_subtract_of_mapM hop' hop)
    show c.Spent (c.stored ((FunctionFactory.apply op').run c.context)).2
    rcases hrun : (FunctionFactory.apply op').run c.context with ⟨e' | f, s⟩
    · -- the layers inside failed
      rw [hrun] at hinner
      exact ⟨hinner e' rfl, rfl, rfl, rfl, rfl, .refl _⟩
    · -- a result would have been stored and returned
      rw [hrun] at he
      cases he

/-- **An operation that fails**, and is no difference, leaves a spent state. -/
theorem spent_apply {op : Operation Handle} {e : Failure} (hop : ∀ a b, op ≠ .subtract a b)
    (he : ((FunctionFactory.apply op).run c).1 = .error e) :
    c.Spent ((FunctionFactory.apply op).run c).2 := by
  cases hk : op.memoKey? with
  | none =>
    rw [apply_eq_delegate hk hop] at he ⊢
    exact spent_delegate hop he
  | some k =>
    rw [run_apply_of_memoKey? hk] at he ⊢
    split at he
    · rename_i hon
      rw [if_pos hon]
      cases hfound : c.memos.find? k with
      | some r =>
        -- a hit does not fail
        rw [hfound] at he
        cases he
      | none =>
        rw [hfound] at he
        have hasked : c.Spent { c with memos := c.memos.ask k } :=
          (Spent.refl c).withMemos (Memos.spent_ask hfound)
        have hdelegate := spent_delegate (e := e) (c := { c with memos := c.memos.ask k }) hop
        dsimp only at he ⊢
        rcases hrun : (delegate op).run { c with memos := c.memos.ask k } with ⟨e' | r, c'⟩
        · -- the look-up in vain, and then the failure inside
          rw [hrun] at hdelegate he
          exact hasked.trans (hdelegate he)
        · rw [hrun] at he
          cases he
    · rename_i hon
      rw [if_neg hon]
      exact spent_delegate hop he

/-- A negation that succeeds stores the negative function in every layer. -/
theorem negate_of_ok {h g : Handle} (hg : ((FunctionFactory.apply (.negate h)).run c).1 = .ok g) :
    ∃ r, reveal h c = .ok r ∧
      (FunctionFactory.apply (.negate h)).run c = (.ok (embed r.neg c).1, (embed r.neg c).2) := by
  rw [apply_eq_delegate rfl (by simp), run_delegate] at hg ⊢
  cases hh : c.table.resolve h with
  | error e =>
    rw [show (Operation.negate h).mapM c.table.resolve = .error e by
      rw [Operation.mapM, hh]; rfl] at hg
    cases hg
  | ok f =>
    have hop : (Operation.negate h).mapM c.table.resolve = .ok (.negate f) := by
      rw [Operation.mapM, hh]; rfl
    rw [hop] at hg ⊢
    dsimp only at hg ⊢
    -- the layers inside have returned a negative function
    obtain ⟨g', hg'⟩ : ∃ g', ((FunctionFactory.apply (.negate f)).run c.context).1 = .ok g' := by
      rcases hrun : (FunctionFactory.apply (.negate f)).run c.context with ⟨e | g', s⟩
      · rw [hrun] at hg
        cases hg
      · exact ⟨g', rfl⟩
    obtain ⟨r, hr, hrun⟩ := Frugal.negate_of_ok hg'
    -- and its handle is stored here
    refine ⟨r, ?_, ?_⟩
    · rw [reveal_eq, hh]
      exact hr
    · rw [hrun]
      rfl

instance : Frugal (Cache S F) Handle where
  -- looks
  parameters_eq {c c'} h := Frugal.parameters_eq (s := c.context) h.context
  reveal_eq a {c c'} h := by
    show (c'.table.resolve a >>= fun f => reveal f c'.context) = _
    rw [h.table]
    simp only [Frugal.reveal_eq _ h.context]
    rfl
  handles_eq a {c c'} h := by
    show (c'.table.resolve a >>= fun f =>
      handles f c'.context >>= fun hs => pure (a :: hs)) = _
    rw [h.table]
    simp only [Frugal.handles_eq _ h.context]
    rfl
  find?_eq r {c c'} h := by
    show (find? r c'.context >>= c'.table.find?) = _
    rw [h.table, Frugal.find?_eq r h.context]
    rfl
  ofHandle?_eq _ _ _ _ := rfl
  ask_eq {α} q a {c c'} h := by
    show (liftM (c'.table.resolve a) >>= fun f => FunctionFactory.ask q f c'.context) = _
    rw [h.table]
    simp only [Frugal.ask_eq q _ h.context]
    rfl
  reports_eq {c c'} h := by
    have hinner := Frugal.reports_eq h.context
    have hstatistics : c'.statistics.withoutMisses = c.statistics.withoutMisses := by
      simp only [Cache.statistics, Cache.size, Statistics.withoutMisses, h.table,
        h.memos.add.counts_eq, h.memos.multiply.counts_eq, h.memos.star.counts_eq]
    show (c'.memoOn, c'.statistics.withoutMisses) :: _ = (c.memoOn, c.statistics.withoutMisses) :: _
    rw [hstatistics, h.memoOn, hinner]
  -- changes
  blind_constant k c c' h := by
    have hinner := Frugal.blind_constant k _ _ h.context
    cases k with
    | one => exact ⟨congrArg Except.ok h.one, h⟩
    | zero => exact ⟨congrArg Except.ok h.zero, h⟩
    | nan | posInf | negInf | rational q => exact h.stored hinner
  blind_embed r c c' h := h.stored (Frugal.blind_embed r _ _ h.context)
  blind_apply := blind_apply
  blind_renew a c c' h := by
    show Beside ((resolve a >>= fun f => Action.ofState (intern f)).run c)
      ((resolve a >>= fun f => Action.ofState (intern f)).run c')
    rw [Stateful.run_bind, Stateful.run_bind, run_resolve, run_resolve, h.table]
    cases c.table.resolve a with
    | error e => exact ⟨rfl, h⟩
    | ok f => exact h.stored (x := (.ok f, c.context)) (y := (.ok f, c'.context)) ⟨rfl, h.context⟩
  rel_setMemoOn? depth on {c c'} h := by
    cases depth with
    | zero => exact .some ⟨h.context, h.table, h.one, h.zero, rfl, h.memos⟩
    | succ depth =>
      have hinner := Frugal.rel_setMemoOn? depth on h.context
      show Option.Rel _ (setMemoOn? depth on c.context >>= fun s => pure { c with context := s })
        (setMemoOn? depth on c'.context >>= fun s => pure { c' with context := s })
      revert hinner
      generalize setMemoOn? depth on c.context = x, setMemoOn? depth on c'.context = y
      intro hinner
      cases hinner with
      | none => exact .none
      | some hst => exact .some ⟨hst, h.table, h.one, h.zero, h.memoOn, h.memos⟩
  spent_setFailing op on {c c'} h :=
    ⟨Frugal.spent_setFailing op on h.context, h.table, h.one, h.zero, h.memoOn, h.memos⟩
  -- failures
  spent_apply := spent_apply
  spent_renew {a c e} he := by
    have hrun : (renew a).run c = (resolve a >>= fun f => Action.ofState (intern f)).run c := rfl
    rw [hrun, Stateful.run_bind, run_resolve] at he ⊢
    cases hf : c.table.resolve a with
    | error e => exact .refl c
    | ok f =>
      rw [hf] at he
      cases he
  negate_of_ok := negate_of_ok

end Cache

end FunctionCache
