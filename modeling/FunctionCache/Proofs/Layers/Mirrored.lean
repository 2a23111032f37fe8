import FunctionCache.Proofs.Layers.Closed
import FunctionCache.Proofs.Tables.InsertionOrder

/-!
# A cache around a cache mirrors it

A cache around another cache stores the handles of that cache. Whatever the
inner cache does for an operation, it stores one function or none and returns
its handle, and then the outer cache stores this handle. So both tables grow at
the same time, and every handle of the inner cache gets its own number in the
outer one.

* `Table.Mirrors` — a table that holds the handles of another one in their order;
* `Table.Mirrors.intern` — an element is stored in one, and its handle in the
  other;
* `Cache.StoresOne` — outcomes with one more function or none;
* `Cache.Closed.storesOne_apply` — every operation but the difference;
* `Cache.Mirrored.apply` — no operation of the outer cache leaves the step.
-/

namespace FunctionCache

/-! ## Tables of handles -/

namespace Table

variable {α : Type} [BEq α] [Hashable α] {t : Table α} {u : Table Handle}

/-- The table holds the handles of the other one, each under itself. -/
def Mirrors (u : Table Handle) (t : Table α) : Prop :=
  u.toList = (List.range t.size).map Handle.ofPosition

namespace Mirrors

theorem size_eq (h : u.Mirrors t) : u.size = t.size := by
  rw [← length_toList, h, List.length_map, List.length_range]

/-- What a handle leads to in one of the tables, it leads to in the other. -/
theorem resolve?_eq_some_iff (h : u.Mirrors t) {a b : Handle} :
    u.resolve? a = some b ↔ a = b ∧ ∃ i < t.size, a = .ofPosition i := by
  rw [Table.resolve?_eq_some_iff, h]
  constructor
  · rintro ⟨i, rfl, hi⟩
    obtain ⟨hlt, rfl⟩ := List.getElem?_eq_some_iff.mp hi
    rw [List.length_map, List.length_range] at hlt
    rw [List.getElem_map, List.getElem_range]
    exact ⟨rfl, i, hlt, rfl⟩
  · rintro ⟨rfl, i, hi, rfl⟩
    refine ⟨i, rfl, ?_⟩
    rw [List.getElem?_map, List.getElem?_range hi]
    rfl

/-- A handle that stands for something in the inner table stands for itself in the outer one. -/
theorem resolve?_of_resolve? (h : u.Mirrors t) {a : Handle} {x : α} (ha : t.resolve? a = some x) :
    u.resolve? a = some a := by
  obtain ⟨i, rfl, hi⟩ := Table.resolve?_eq_some_iff.mp ha
  obtain ⟨hlt, -⟩ := List.getElem?_eq_some_iff.mp hi
  rw [length_toList] at hlt
  exact h.resolve?_eq_some_iff.mpr ⟨rfl, i, hlt, rfl⟩

/-- The operands of an operation are the same in both tables. -/
theorem eq_of_mapM_resolve (h : u.Mirrors t) {op op' : Operation Handle}
    (hop : op.mapM u.resolve = .ok op') : op' = op := by
  obtain ⟨pairs, rfl, rfl, hpairs⟩ := Operation.mapM_eq_ok.mp hop
  have hsame : ∀ p ∈ pairs.operands, p.1 = p.2 := fun p hp =>
    (h.resolve?_eq_some_iff.mp (resolve_eq_ok.mp (hpairs p hp))).1
  cases pairs with
  | parameter i => rfl
  | add x y | subtract x y | multiply x y | divide x y =>
    simp only [Operation.map, hsame x (by simp [Operation.operands]),
      hsame y (by simp [Operation.operands])]
  | negate x | star x | constraint x =>
    simp only [Operation.map, hsame x (by simp [Operation.operands])]

variable [LawfulBEq α]

theorem empty : (Table.empty : Table Handle).Mirrors (Table.empty : Table α) := rfl

/-- **An element** is stored in one table and its handle in the other: both get one more or neither,
and the handles are the same. -/
theorem intern (h : u.Mirrors t) (x : α) :
    (u.intern (t.intern x).1).1 = (t.intern x).1 ∧
      (u.intern (t.intern x).1).2.Mirrors (t.intern x).2 := by
  cases hx : t.find? x with
  | some a =>
    -- neither
    have ha := h.resolve?_of_resolve? ((find?_eq_some_iff t x a).mp hx)
    rw [intern_of_find? hx, intern_of_resolve? ha]
    exact ⟨rfl, h⟩
  | none =>
    obtain ⟨hhandle, hlist⟩ := toList_intern_of_find? hx
    -- the handle of the new element has never been stored
    have hnew : u.find? (.ofPosition t.size) = none := by
      rw [find?_eq_none_iff, h]
      intro hmem
      obtain ⟨i, hi, heq⟩ := List.mem_map.mp hmem
      rw [List.mem_range] at hi
      cases heq
      omega
    obtain ⟨hhandle', hlist'⟩ := toList_intern_of_find? hnew
    have hsize : (t.intern x).2.size = t.size + 1 := by
      rw [← length_toList, hlist, List.length_append, length_toList, List.length_singleton]
    rw [hhandle]
    refine ⟨by rw [hhandle', h.size_eq], ?_⟩
    rw [Mirrors, hlist', hsize, h, List.range_succ, List.map_append, List.map_singleton]

end Mirrors

end Table

/-! ## Caches -/

open LayeredFactory Closable

namespace Cache

section

variable {S F : Type} [BEq F] [LawfulBEq F] [Hashable F] {c : Cache S F}

/-- The table is left alone, or the outcome is the handle of a function stored last, be it new or
not. -/
def StoresOne (c : Cache S F) (x : Except Failure Handle × Cache S F) : Prop :=
  match x.1 with
  | .ok h => ∃ f, c.table.intern f = (h, x.2.table)
  | .error _ => x.2.table = c.table

/-- What the layers inside return is stored last. -/
theorem storesOne_stored (c : Cache S F) (x : Except Failure F × S) : c.StoresOne (c.stored x) := by
  rcases x with ⟨e | f, s⟩
  · exact rfl
  · exact ⟨f, rfl⟩

/-- Recording a result stores no function. -/
theorem StoresOne.recorded {x : Except Failure Handle × Cache S F} (h : c.StoresOne x)
    (k : MemoKey) : c.StoresOne (recorded k x) := by
  rcases x with ⟨e | a, c'⟩
  · exact h
  · exact h

/-- What the inner cache returns, the outer one stores under the same number. -/
theorem mirrors_stored {d : Cache (Cache S F) Handle} (h : d.table.Mirrors d.context.table)
    {x : Except Failure Handle × Cache S F} (hx : d.context.StoresOne x) :
    (d.stored x).1 = x.1 ∧ (d.stored x).2.table.Mirrors (d.stored x).2.context.table := by
  rcases x with ⟨e | a, c⟩
  · refine ⟨rfl, ?_⟩
    show d.table.Mirrors c.table
    rw [show c.table = d.context.table from hx]
    exact h
  · obtain ⟨f, hf⟩ := hx
    have hboth := h.intern f
    rw [hf] at hboth
    exact ⟨congrArg Except.ok hboth.1, hboth.2⟩

variable [LayeredFactory S F]

/-- A delegated operation stores its result and nothing else. -/
theorem storesOne_delegate (op : Operation Handle) (c : Cache S F) :
    c.StoresOne ((delegate op).run c) := by
  rw [run_delegate]
  cases op.mapM c.table.resolve with
  | error e => exact rfl
  | ok op => exact c.storesOne_stored _

variable [Closable S]

/-- **An operation** of a closed cache, unless it is a difference: what a memo holds has been stored
before, and everything else is stored last. -/
theorem Closed.storesOne_apply (hc : c.Closed) {op : Operation Handle}
    (hop : ∀ a b, op ≠ .subtract a b) : c.StoresOne ((FunctionFactory.apply op).run c) := by
  cases hk : op.memoKey? with
  | none =>
    rw [apply_eq_delegate hk hop]
    exact storesOne_delegate op c
  | some k =>
    rw [run_apply_of_memoKey? hk]
    split
    · cases hh : c.memos.find? k with
      | some h =>
        -- hit
        obtain ⟨r, hr⟩ := hc.entries hh
        obtain ⟨f, hf, -⟩ := reveal_eq_ok.mp hr
        exact ⟨f, Table.intern_of_resolve? hf⟩
      | none =>
        have hasked := storesOne_delegate op { c with memos := c.memos.ask k }
        exact StoresOne.recorded (c := c) hasked k
    · exact storesOne_delegate op c

end

/-! ### A cache around a cache -/

section

variable {S F : Type} [LayeredFactory S F] [BEq F] [LawfulBEq F] [Hashable F] [Closable S]

/-- A closed cache around a cache that mirrors it. -/
structure Mirrored (d : Cache (Cache S F) Handle) : Prop where
  closed : d.Closed
  mirrors : d.table.Mirrors d.context.table

variable {d : Cache (Cache S F) Handle}

/-- **A delegated operation** fails at a handle that is missing, or the inner cache performs it on
the same handles. -/
theorem Mirrored.run_delegate (hd : d.Mirrored) (op : Operation Handle) :
    (∃ e, (delegate op).run d = (.error e, d)) ∨
      op.mapM d.table.resolve = .ok op ∧
        (delegate op).run d = d.stored ((FunctionFactory.apply op).run d.context) := by
  rw [Cache.run_delegate]
  cases hop : op.mapM d.table.resolve with
  | error e => exact Or.inl ⟨_, rfl⟩
  | ok op' =>
    rw [hd.mirrors.eq_of_mapM_resolve hop]
    exact Or.inr ⟨rfl, rfl⟩

/-- A delegated operation stores the same in both caches. -/
theorem Mirrored.mirrors_delegate (hd : d.Mirrored) {op : Operation Handle}
    (hop : ∀ a b, op ≠ .subtract a b) :
    ((delegate op).run d).2.table.Mirrors ((delegate op).run d).2.context.table := by
  rcases hd.run_delegate op with ⟨e, hrun⟩ | ⟨-, hrun⟩
  · rw [hrun]
    exact hd.mirrors
  · rw [hrun]
    have hinner : d.context.Closed := hd.closed.context
    exact (mirrors_stored hd.mirrors (hinner.storesOne_apply hop)).2

/-- Operands that the outer cache has, the inner one has. -/
theorem Mirrored.hasOperands (hd : d.Mirrored) {op : Operation Handle}
    (hop : op.mapM d.table.resolve = .ok op) :
    (op.operands.all fun h => (d.context.table.resolve? h).isSome) = true := by
  rw [List.all_eq_true]
  intro h hh
  obtain ⟨a, -, ha⟩ := Operation.exists_operand_of_mapM hop hh
  obtain ⟨r, hr⟩ := hd.closed.revealed (Table.resolve_eq_ok.mp ha)
  obtain ⟨f, hf, -⟩ := reveal_eq_ok.mp hr
  rw [hf]
  rfl

theorem Mirrored.ask (hd : d.Mirrored) (k : MemoKey) :
    Mirrored { d with memos := d.memos.ask k } := ⟨hd.closed.ask k, hd.mirrors⟩

variable [Closing S F] [Erasable S] [Storage S F]

/-- Hit or miss, the two tables keep step. -/
private theorem Mirrored.apply_of_ne_subtract (hd : d.Mirrored) {op : Operation Handle}
    (hop : ∀ a b, op ≠ .subtract a b) : ((FunctionFactory.apply op).run d).2.Mirrored where
  closed := (Closing.hands_apply op d hd.closed).1
  mirrors := by
    cases hk : op.memoKey? with
    | none =>
      rw [apply_eq_delegate hk hop]
      exact hd.mirrors_delegate hop
    | some k =>
      rw [run_apply_of_memoKey? hk]
      split
      · cases d.memos.find? k with
        -- a hit stores nothing in either
        | some h => exact hd.mirrors
        | none =>
          have hdelegate := (hd.ask k).mirrors_delegate hop
          rcases hrun : (delegate op).run { d with memos := d.memos.ask k } with ⟨e | h, d'⟩
          · rw [hrun] at hdelegate
            exact hdelegate
          · rw [hrun] at hdelegate
            exact hdelegate
      · exact hd.mirrors_delegate hop

/-- **No operation** of the outer cache stores functions in one of the two only. -/
theorem Mirrored.apply (hd : d.Mirrored) (op : Operation Handle) :
    ((FunctionFactory.apply op).run d).2.Mirrored :=
  apply_invariant (fun _ _ hop hd => hd.apply_of_ne_subtract hop) op hd

/-- A cache put around a new cache mirrors it. -/
theorem mirrored_ofContext (outerOn innerOn : Bool) {s : S} (hs : Closable.Closed s) :
    (ofContext outerOn (ofContext innerOn s) : Cache (Cache S F) Handle).Mirrored where
  closed := closed_ofContext outerOn (closed_ofContext innerOn hs)
  mirrors := by
    -- both hold 1 and 0
    have hone := Table.Mirrors.empty.intern (FunctionFactory.constant .one s).1
    have hzero := hone.2.intern
      (FunctionFactory.constant .zero (FunctionFactory.constant .one s).2).1
    exact hzero.2

end

end Cache

end FunctionCache
