import Mathlib.Data.Finset.Card
import Mathlib.Data.Sym.Sym2
import FunctionCache.Memo

/-!
# A memo of pairs is a log of insertions

The memo of a commutative operation is asked with two operands and keyed by the
larger and the smaller one. Seen from outside, it is a log of all requests made
so far, in which operands count as unordered pairs: a look-up finds the latest
insertion for its pair and no other, and the counters are counts of look-ups in
the log. The hash map and the order inside the keys cannot be told from it.

* `PairMemo.Request`, `PairMemo.run` — requests to a memo, one after the other;
* `PairMemo.latest?`, `PairMemo.Request.replies` — what the log alone would reply;
* `PairMemo.Keeps` — what a memo keeps of a log;
* `PairMemo.Keeps.request` — one more request;
* `PairMemo.pairs_are_logged` — the result, for every sequence of requests.
-/

namespace FunctionCache

/-- Keys are equal exactly if the operands make the same unordered pair. -/
theorem PairKey.ofPair_eq_ofPair_iff {a b c d : Handle} :
    ofPair a b = ofPair c d ↔ s(a, b) = s(c, d) := by
  rw [ofPair_eq_iff, Sym2.eq_iff]

/-- A memo of results under two operands in any order. -/
abbrev PairMemo := Memo PairKey

namespace PairMemo

/-! ## Requests -/

/-- A request to a memo. -/
inductive Request
  | get (a b : Handle)
  | insert (a b result : Handle)

/-- The reply to a request. -/
inductive Reply
  | got (result : Option Handle)
  | inserted

namespace Reply

/-- A look-up found a result. -/
def isHit : Reply → Bool
  | got result => result.isSome
  | inserted => false

/-- A look-up found nothing. -/
def isMiss : Reply → Bool
  | got result => result.isNone
  | inserted => false

end Reply

/-- Makes one request. -/
def request (m : PairMemo) : Request → Reply × PairMemo
  | .get a b => (.got (m.get (.ofPair a b)).1, (m.get (.ofPair a b)).2)
  | .insert a b h => (.inserted, m.insert (.ofPair a b) h)

/-- Makes the requests one after the other. -/
def run (m : PairMemo) : List Request → List Reply × PairMemo
  | [] => ([], m)
  | first :: rest =>
    let (reply, m) := m.request first
    let (replies, m) := m.run rest
    (reply :: replies, m)

/-! ## Logs -/

/-- The insertions of a log under the unordered pairs of their operands, the oldest first. -/
def insertions (log : List Request) : List (Sym2 Handle × Handle) :=
  log.filterMap fun
    | .get _ _ => none
    | .insert a b h => some (s(a, b), h)

/-- The result of the latest insertion for a pair. -/
def latest? (log : List Request) (pair : Sym2 Handle) : Option Handle :=
  ((insertions log).reverse.find? fun e => e.1 = pair).map Prod.snd

/-- The unordered pairs for which there are insertions. -/
def pairs (log : List Request) : Finset (Sym2 Handle) := ((insertions log).map Prod.fst).toFinset

namespace Request

/-- The reply that belongs to the requests made before. -/
def reply (log : List Request) : Request → Reply
  | get a b => .got (latest? log s(a, b))
  | insert _ _ _ => .inserted

/-- The replies to requests that are made after those of a log. -/
def replies (log : List Request) : List Request → List Reply
  | [] => []
  | first :: rest => first.reply log :: replies (log ++ [first]) rest

/-- A request at the end adds its own reply, to the log of all requests before it. -/
theorem replies_concat (log requests : List Request) (last : Request) :
    replies log (requests ++ [last]) = replies log requests ++ [last.reply (log ++ requests)] := by
  induction requests generalizing log with
  | nil => simp [replies]
  | cons first rest ih => simp [replies, ih]

/-- The last request adds its own reply to a count of replies. -/
theorem countP_replies_concat (counted : Reply → Bool) (log : List Request) (last : Request) :
    (replies [] (log ++ [last])).countP counted =
      (replies [] log).countP counted + if counted (last.reply log) then 1 else 0 := by
  rw [replies_concat, List.nil_append, List.countP_append, List.countP_singleton]

end Request

section

variable {log : List Request} {a b c d h : Handle}

@[simp] theorem insertions_concat_get :
    insertions (log ++ [.get a b]) = insertions log := by
  simp [insertions]

@[simp] theorem insertions_concat_insert :
    insertions (log ++ [.insert a b h]) = insertions log ++ [(s(a, b), h)] := by
  simp [insertions]

theorem latest?_concat_get (pair : Sym2 Handle) :
    latest? (log ++ [.get a b]) pair = latest? log pair := by
  rw [latest?, insertions_concat_get, latest?]

/-- An insertion comes latest for its own pair and changes no other. -/
theorem latest?_concat_insert (pair : Sym2 Handle) :
    latest? (log ++ [.insert a b h]) pair =
      if s(a, b) = pair then some h else latest? log pair := by
  -- the list is searched from its end
  rw [latest?, insertions_concat_insert, List.reverse_append, List.reverse_singleton,
    List.singleton_append, List.find?_cons]
  by_cases hpair : s(a, b) = pair
  · simp [hpair]
  · simp [hpair, latest?]

theorem isSome_latest?_iff {pair : Sym2 Handle} : (latest? log pair).isSome ↔ pair ∈ pairs log := by
  simp [latest?, pairs]

/-! ## Memos -/

/-- What the memo keeps of a log. -/
structure Keeps (m : PairMemo) (log : List Request) : Prop where
  get (a b : Handle) : (m.get (.ofPair a b)).1 = latest? log s(a, b)
  size : m.size = (pairs log).card
  hits : m.hits = (Request.replies [] log).countP Reply.isHit
  misses : m.misses = (Request.replies [] log).countP Reply.isMiss

variable {m : PairMemo}

/-- A new memo keeps the log without requests. -/
theorem keeps_empty : Keeps .empty [] where
  get a b := by
    rw [Memo.get_fst]
    exact Std.HashMap.getElem?_empty
  size := Std.HashMap.size_empty
  hits := rfl
  misses := rfl

/-- **One request**: the reply is that of the log, to which the request is added. -/
theorem Keeps.request (hm : m.Keeps log) (r : Request) :
    (m.request r).1 = r.reply log ∧ (m.request r).2.Keeps (log ++ [r]) := by
  cases r with
  | get a b =>
    -- both counters are read off the result of the look-up
    have hhits := m.hits_get (.ofPair a b)
    have hmisses := m.misses_get (.ofPair a b)
    rw [hm.get] at hhits hmisses
    refine ⟨congrArg Reply.got (hm.get a b), fun c d => ?_, ?_, ?_, ?_⟩
    · -- looking up changes no entry
      rw [latest?_concat_get, ← hm.get, Memo.get_fst, Memo.get_fst]
      exact congrArg (·[PairKey.ofPair c d]?) (m.entries_get _)
    · rw [pairs, insertions_concat_get]
      exact (congrArg Std.HashMap.size (m.entries_get _)).trans hm.size
    · rw [Request.countP_replies_concat, ← hm.hits]
      exact hhits
    · rw [Request.countP_replies_concat, ← hm.misses]
      exact hmisses
  | insert a b h =>
    refine ⟨rfl, fun c d => ?_, ?_, ?_, ?_⟩
    · show ((m.insert (.ofPair a b) h).get (.ofPair c d)).1 = _
      rw [m.get_insert, latest?_concat_insert, hm.get]
      simp only [beq_iff_eq, PairKey.ofPair_eq_ofPair_iff]
    · -- a pair is new to the memo exactly if it is new to the log
      have hpairs : pairs (log ++ [.insert a b h]) = insert s(a, b) (pairs log) := by
        rw [pairs, insertions_concat_insert, List.map_append, List.toFinset_append,
          Finset.union_comm]
        rfl
      show (m.insert (.ofPair a b) h).size = _
      rw [m.size_insert, hm.get, hm.size, hpairs, Finset.card_insert_eq_ite]
      simp only [isSome_latest?_iff]
    · rw [Request.countP_replies_concat, ← hm.hits]
      rfl
    · rw [Request.countP_replies_concat, ← hm.misses]
      rfl

/-- A run goes on with the log that the memo keeps. -/
theorem Keeps.run (hm : m.Keeps log) (requests : List Request) :
    (m.run requests).1 = Request.replies log requests ∧
      (m.run requests).2.Keeps (log ++ requests) := by
  induction requests generalizing m log with
  | nil =>
    rw [List.append_nil]
    exact ⟨rfl, hm⟩
  | cons first rest ih =>
    obtain ⟨hreply, hfirst⟩ := hm.request first
    obtain ⟨hreplies, hrest⟩ := ih hfirst
    rw [List.append_assoc, List.singleton_append] at hrest
    refine ⟨?_, hrest⟩
    calc (m.run (first :: rest)).1
        = (m.request first).1 :: ((m.request first).2.run rest).1 := rfl
      _ = first.reply log :: Request.replies (log ++ [first]) rest := by rw [hreply, hreplies]

/-- The memo is a log of insertions by unordered pairs. -/
structure IsLog (m : PairMemo) (log : List Request) : Prop extends Keeps m log where
  /-- An insertion is found under its own pair only. -/
  get_insert (a b c d h : Handle) : ((m.insert (.ofPair a b) h).get (.ofPair c d)).1 =
    if s(a, b) = s(c, d) then some h else (m.get (.ofPair c d)).1
  counts_insert (a b h : Handle) : (m.insert (.ofPair a b) h).hits = m.hits ∧
    (m.insert (.ofPair a b) h).misses = m.misses

/-- A memo that keeps a log treats the next insertion as the log does. -/
theorem Keeps.isLog (hm : m.Keeps log) : m.IsLog log where
  toKeeps := hm
  get_insert a b c d h := by
    rw [Memo.get_insert]
    simp only [beq_iff_eq, PairKey.ofPair_eq_ofPair_iff]
  counts_insert a b h := ⟨rfl, rfl⟩

/-- **A memo of pairs is a log of insertions**: whatever is requested of a new memo, each reply is
the one that belongs to the log of the requests made before, and the memo ends as the log of all of
them. -/
theorem pairs_are_logged (requests : List Request) :
    (run .empty requests).1 = Request.replies [] requests ∧
      (run .empty requests).2.IsLog requests := by
  obtain ⟨hreplies, hkeeps⟩ := keeps_empty.run requests
  exact ⟨hreplies, hkeeps.isLog⟩

/-- A handle paired with itself makes another pair than with a second one, in either order. -/
example :
    (run .empty [.insert ⟨1⟩ ⟨1⟩ ⟨5⟩, .get ⟨2⟩ ⟨1⟩, .insert ⟨1⟩ ⟨2⟩ ⟨6⟩, .get ⟨2⟩ ⟨1⟩]).1 =
      [.inserted, .got none, .inserted, .got (some ⟨6⟩)] := by
  cbv

end

end PairMemo

end FunctionCache
