import Mathlib.Data.List.Nodup
import FunctionCache.Proofs.Tables

/-!
# A table is a list of distinct elements

Seen from outside, a table is the list of the elements that have been interned,
each once and where it came first. The handle of an element is its position in
the list, counted from 1. The array and the hash index behind it cannot be told
from this list by any sequence of requests.

* `Table.Request`, `Table.run` — requests to a table, one after the other;
* `Table.Request.replies` — the replies that the list alone would give;
* `Table.OrderedSet` — a table holds the elements of a list, and its handles are
  theirs from now on;
* `Table.run_eq_replies` — a run from any table;
* `Table.insertion_ordered` — the result, for every sequence of requests.
-/

namespace FunctionCache.Table

variable {α : Type}

/-! ## Requests -/

/-- A request to a table. -/
inductive Request (α : Type)
  | intern (a : α)
  | find (a : α)
  | resolve (h : Handle)
  | size

/-- The reply to a request. -/
inductive Reply (α : Type)
  | handle (h : Handle)
  | found (h : Option Handle)
  | resolved (x : Except Fault α)
  | size (n : Nat)

namespace Request

variable [BEq α]

/-- The elements that requests intern, with repetitions. -/
def interned (requests : List (Request α)) : List α :=
  requests.filterMap fun
    | intern a => some a
    | _ => none

/-- The list after a request: a new element goes to the end. -/
def extend (l : List α) : Request α → List α
  | intern a => if l.contains a then l else l ++ [a]
  | _ => l

/-- The reply that belongs to a list of distinct elements. The handle of an element is its position
in the list, to which it is added if it is not there. -/
def reply (l : List α) : Request α → Reply α
  | intern a => .handle (.ofPosition ((l ++ [a]).idxOf a))
  | find a => .found ((l.idxOf? a).map .ofPosition)
  | resolve h => .resolved <|
    if inside : 1 ≤ h.number ∧ h.number ≤ l.length then .ok (l.get ⟨h.number - 1, by omega⟩)
    else .error (.unknownHandle h)
  | size => .size l.length

/-- The replies to requests, from a list on. -/
def replies (l : List α) : List (Request α) → List (Reply α)
  | [] => []
  | first :: rest => first.reply l :: replies (first.extend l) rest

end Request

section

variable [BEq α] [LawfulBEq α] [Hashable α]

/-- Makes one request. -/
def request (t : Table α) : Request α → Reply α × Table α
  | .intern a => (.handle (t.intern a).1, (t.intern a).2)
  | .find a => (.found (t.find? a), t)
  | .resolve h => (.resolved (t.resolve h), t)
  | .size => (.size t.size, t)

/-- Makes the requests one after the other. -/
def run (t : Table α) : List (Request α) → List (Reply α) × Table α
  | [] => ([], t)
  | first :: rest =>
    let (reply, t) := t.request first
    let (replies, t) := t.run rest
    (reply :: replies, t)

/-- The table holds the elements of the list, each under the handle of its position, and whatever is
requested from now on, these handles stand for these elements. -/
structure OrderedSet (t : Table α) (l : List α) : Prop where
  toList : t.toList = l
  nodup : l.Nodup
  /-- The handles are the numbers from 1 to the length of the list. -/
  handles (h : Handle) : (∃ a, t.resolve h = .ok a) ↔ 1 ≤ h.number ∧ h.number ≤ l.length
  /-- Interning what a handle stands for returns the handle and stores nothing. -/
  intern_resolve {h : Handle} {a : α} : t.resolve h = .ok a → t.intern a = (h, t)
  /-- The handle of an element stands for the element. -/
  resolve_intern (a : α) : (t.intern a).2.resolve (t.intern a).1 = .ok a
  /-- What a handle stands for never changes. -/
  stable {h : Handle} {a : α} (later : List (Request α)) :
    t.resolve h = .ok a → (t.run later).2.resolve h = .ok a
  /-- At any later time another element has another handle. -/
  injective (a b : α) (between : List (Request α)) :
    (((t.intern a).2.run between).2.intern b).1 = (t.intern a).1 ↔ b = a

end

section

variable [BEq α] [Hashable α] {t : Table α} {a : α}

theorem length_toList (t : Table α) : t.toList.length = t.size := by
  simp [toList, size]

/-! ## Requests that look -/

/-- Handles count the places of the list. -/
theorem resolve?_ofPosition (t : Table α) (i : Nat) :
    t.resolve? (.ofPosition i) = t.toList[i]? := by
  rw [getElem?_toList]
  rfl

/-- An element is found at one position only. -/
theorem nodup_toList (t : Table α) : t.toList.Nodup := by
  rw [List.nodup_iff_getElem?_ne_getElem?]
  intro i j hij hj heq
  have ha : t.toList[j]? = some t.toList[j] := List.getElem?_eq_getElem hj
  -- the index knows one place of an element
  have hfirst : t.index[t.toList[j]]? = some i := by rw [t.index_iff, ← getElem?_toList, heq, ha]
  have hsecond : t.index[t.toList[j]]? = some j := by rw [t.index_iff, ← getElem?_toList, ha]
  rw [hfirst] at hsecond
  have : i = j := Option.some.inj hsecond
  omega

/-- **Resolving a handle** is looking at its position in the list, from 1 to its length. -/
theorem resolve_eq (t : Table α) (h : Handle) :
    t.resolve h = if inside : 1 ≤ h.number ∧ h.number ≤ t.toList.length then
        .ok (t.toList.get ⟨h.number - 1, by omega⟩)
      else .error (.unknownHandle h) := by
  unfold resolve
  rcases h with ⟨_ | i⟩
  · rfl
  · have hresolve : t.resolve? ⟨i + 1⟩ = t.toList[i]? := t.resolve?_ofPosition i
    rw [hresolve]
    by_cases hi : i + 1 ≤ t.toList.length
    · rw [List.getElem?_eq_getElem hi, dif_pos ⟨Nat.succ_pos i, hi⟩]
      rfl
    · rw [List.getElem?_eq_none (by omega), dif_neg (fun inside => hi inside.2)]

variable [LawfulBEq α]

/-- **Finding an element** is looking for its position in the list. -/
theorem find?_eq (t : Table α) (a : α) : t.find? a = (t.toList.idxOf? a).map .ofPosition := by
  ext h
  rw [find?_eq_some_iff, resolve?_eq_some_iff, Option.map_eq_some_iff]
  constructor
  · rintro ⟨i, rfl, hi⟩
    obtain ⟨hlt, rfl⟩ := List.getElem?_eq_some_iff.mp hi
    refine ⟨i, List.idxOf?_eq_some_iff.mpr ⟨hlt, rfl, fun j hj heq => ?_⟩, rfl⟩
    -- an earlier position would hold the element twice
    have : j = i := t.nodup_toList.getElem_inj_iff.mp heq
    omega
  · rintro ⟨i, hi, rfl⟩
    obtain ⟨hlt, heq, -⟩ := List.idxOf?_eq_some_iff.mp hi
    exact ⟨i, rfl, by rw [List.getElem?_eq_getElem hlt, heq]⟩

theorem find?_eq_none_iff : t.find? a = none ↔ a ∉ t.toList := by
  rw [find?_eq, Option.map_eq_none_iff, List.idxOf?_eq_none_iff]

theorem exists_find? (ha : a ∈ t.toList) : ∃ h, t.find? a = some h := by
  cases hf : t.find? a with
  | some h => exact ⟨h, rfl⟩
  | none => exact absurd ha (find?_eq_none_iff.mp hf)

/-! ## Requests that store -/

/-- The handle of an element is its position, once it has been put at the end if it is new. -/
theorem intern_fst (t : Table α) (a : α) :
    (t.intern a).1 = .ofPosition ((t.toList ++ [a]).idxOf a) := by
  rw [List.idxOf_append]
  by_cases ha : a ∈ t.toList
  · obtain ⟨h, hh⟩ := exists_find? ha
    rw [if_pos ha, intern_of_find? hh]
    rw [find?_eq, Option.map_eq_some_iff] at hh
    obtain ⟨i, hi, rfl⟩ := hh
    rw [List.idxOf_eq_getD_idxOf? a, hi]
    rfl
  · rw [if_neg ha, (toList_intern_of_find? (find?_eq_none_iff.mpr ha)).1, ← length_toList]
    simp

/-- The list after an element has been stored. -/
theorem toList_intern (t : Table α) (a : α) :
    (t.intern a).2.toList = (Request.intern a).extend t.toList := by
  simp only [Request.extend, List.contains_iff_mem]
  by_cases ha : a ∈ t.toList
  · obtain ⟨h, hh⟩ := exists_find? ha
    rw [if_pos ha, intern_of_find? hh]
  · rw [if_neg ha]
    exact (toList_intern_of_find? (find?_eq_none_iff.mpr ha)).2

/-- **One request**: the reply and the table after it are those of the list. -/
theorem request_eq (t : Table α) (r : Request α) :
    (t.request r).1 = r.reply t.toList ∧ (t.request r).2.toList = r.extend t.toList := by
  cases r with
  | intern a => exact ⟨congrArg Reply.handle (t.intern_fst a), t.toList_intern a⟩
  | find a => exact ⟨congrArg Reply.found (t.find?_eq a), rfl⟩
  | resolve h => exact ⟨congrArg Reply.resolved (t.resolve_eq h), rfl⟩
  | size => exact ⟨congrArg Reply.size t.length_toList.symm, rfl⟩

end

/-! ## Runs -/

section

variable [BEq α] [LawfulBEq α]

/-- A list without repetitions has nothing to erase. -/
theorem eraseDups_eq_self {l : List α} (hl : l.Nodup) : l.eraseDups = l := by
  induction l with
  | nil => rfl
  | cons a l ih =>
    obtain ⟨hmem, hrest⟩ := List.nodup_cons.mp hl
    have hfilter : l.filter (fun b => !b == a) = l := by
      refine List.filter_eq_self.mpr fun b hb => ?_
      -- the first element does not come again
      have : b ≠ a := fun heq => hmem (heq ▸ hb)
      simpa using this
    rw [List.eraseDups_cons, hfilter, ih hrest]

/-- To go on with the list after a request is to go on with what it interned. -/
theorem Request.eraseDups_extend (l : List α) (first : Request α) (rest : List (Request α)) :
    (first.extend l ++ interned rest).eraseDups = (l ++ interned (first :: rest)).eraseDups := by
  cases first with
  | intern a =>
    have hcons : interned (intern a :: rest) = a :: interned rest := rfl
    simp only [extend, List.contains_iff_mem, hcons]
    split
    · rename_i ha
      rw [List.eraseDups_append, List.eraseDups_append, List.cons_removeAll]
      simp [ha]
    · simp
  | find | resolve | size => rfl

variable [Hashable α]

/-- **A run** replies as the list does, and ends with the list of all elements interned. -/
theorem run_eq_replies (t : Table α) (requests : List (Request α)) :
    (t.run requests).1 = Request.replies t.toList requests ∧
      (t.run requests).2.toList = (t.toList ++ Request.interned requests).eraseDups := by
  induction requests generalizing t with
  | nil =>
    refine ⟨rfl, ?_⟩
    rw [show Request.interned ([] : List (Request α)) = [] from rfl, List.append_nil,
      eraseDups_eq_self t.nodup_toList]
    rfl
  | cons first rest ih =>
    -- the first request by itself, the others from the list after it
    obtain ⟨hreply, hlist⟩ := t.request_eq first
    obtain ⟨hreplies, hrest⟩ := ih (t.request first).2
    rw [hlist] at hreplies hrest
    constructor
    · calc (t.run (first :: rest)).1
          = (t.request first).1 :: ((t.request first).2.run rest).1 := rfl
        _ = first.reply t.toList :: Request.replies (first.extend t.toList) rest := by
          rw [hreply, hreplies]
    · rw [← Request.eraseDups_extend]
      exact hrest

/-- No request changes what a handle stands for. -/
theorem resolve_request {t : Table α} {h : Handle} {a : α} (hr : t.resolve h = .ok a)
    (r : Request α) : (t.request r).2.resolve h = .ok a := by
  cases r with
  | intern b => exact resolve_eq_ok.mpr (resolve?_intern_of_resolve? (resolve_eq_ok.mp hr) b)
  | find | resolve | size => exact hr

/-- No run changes what a handle stands for. -/
theorem resolve_run {t : Table α} {h : Handle} {a : α} (hr : t.resolve h = .ok a)
    (requests : List (Request α)) : (t.run requests).2.resolve h = .ok a := by
  induction requests generalizing t with
  | nil => exact hr
  | cons first rest ih => exact ih (resolve_request hr first)

/-- Handles given out at different times are equal only for equal elements. -/
theorem intern_run_intern_iff (t : Table α) (a b : α) (between : List (Request α)) :
    (((t.intern a).2.run between).2.intern b).1 = (t.intern a).1 ↔ b = a := by
  have hstill : ((t.intern a).2.run between).2.resolve (t.intern a).1 = .ok a :=
    resolve_run (resolve_eq_ok.mpr (resolve?_intern t a)) between
  constructor
  · intro heq
    -- after the second interning the handle stands for both
    have hb := resolve?_intern ((t.intern a).2.run between).2 b
    have ha := resolve?_intern_of_resolve? (resolve_eq_ok.mp hstill) b
    rw [heq, ha] at hb
    exact (Option.some.inj hb).symm
  · rintro rfl
    rw [intern_of_resolve? (resolve_eq_ok.mp hstill)]

/-- Every table is the ordered set of its elements. -/
theorem orderedSet_toList (t : Table α) : t.OrderedSet t.toList where
  toList := rfl
  nodup := t.nodup_toList
  handles h := by
    rw [t.resolve_eq h]
    split
    · rename_i inside
      simp [inside]
    · rename_i outside
      simp [outside]
  intern_resolve hr := intern_of_resolve? (resolve_eq_ok.mp hr)
  resolve_intern a := resolve_eq_ok.mpr (resolve?_intern t a)
  stable later hr := resolve_run hr later
  injective a b between := t.intern_run_intern_iff a b between

/-- **A table is an insertion-ordered set**: whatever is requested of a new table, each reply is the
one that belongs to the list of distinct elements interned so far, in the order in which they first
came, and the table ends as the set of all of them. -/
theorem insertion_ordered (requests : List (Request α)) :
    ((empty : Table α).run requests).1 = Request.replies [] requests ∧
      ((empty : Table α).run requests).2.OrderedSet (Request.interned requests).eraseDups := by
  obtain ⟨hreplies, hlist⟩ := run_eq_replies (empty : Table α) requests
  refine ⟨hreplies, ?_⟩
  have hset := orderedSet_toList ((empty : Table α).run requests).2
  rw [hlist] at hset
  exact hset

/-- Two numbers, one of them interned twice. -/
theorem insertion_ordered_of_numbers :
    let run := (empty : Table Nat).run [.intern 7, .intern 5, .intern 7, .find 6, .resolve ⟨3⟩]
    run.1 = [.handle ⟨1⟩, .handle ⟨2⟩, .handle ⟨1⟩, .found none,
        .resolved (.error (.unknownHandle ⟨3⟩))] ∧
      run.2.OrderedSet [7, 5] :=
  insertion_ordered [.intern 7, .intern 5, .intern 7, .find 6, .resolve ⟨3⟩]

end

end FunctionCache.Table
