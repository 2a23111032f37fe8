import FunctionCache.Layers
import FunctionCache.Proofs.Computation
import FunctionCache.Proofs.RationalFunction.Commutativity

/-!
# Transparent layers

A stack of caches stores functions, remembers results and counts calls. Only
what it stores is visible from outside. To say so, two things are needed of the
states of a stack:

* `Erasable.erase` — the state with all memos empty and off and all counts at 0;
* `Erasable.Sound` — everything remembered is what would be computed again.

`LayeredFactory.reference` is the operation without memos: the engine computes
on the revealed operands, and the result is stored in all layers. The class
`Transparent` states that every operation of a sound state does what its
reference does, up to erasure, unless it has been switched off at the bottom.
What holds of stored functions without any operation is in `Storage`.

* `Extends` — a later state: what functions stand for stays;
* `Settles` — an outcome is that of the reference or a refusal;
* `Settles.cases` — the two kinds of outcome, in terms of what is revealed.
-/

namespace FunctionCache

namespace LayeredFactory

variable {S F : Type} [LayeredFactory S F]

/-- The engine at the bottom of the layers. -/
def engine (s : S) : Engine := ⟨FunctionFactory.parameters s⟩

/-- The numbers of functions in the caches, the outermost first. -/
def sizes (s : S) : List Nat := (reports s).map fun r => r.2.functions

/-- What the engine makes of the revealed operands. -/
def computed (op : Operation F) (s : S) : Except Failure RationalFunction := do
  (engine s).compute (← (op.mapM (reveal · s) : Except Fault _))

/-- The operation without memos: what the engine computes is stored in all layers. -/
def reference (op : Operation F) (s : S) : Except Failure F × S :=
  match computed op s with
  | .error e => (.error e, s)
  | .ok r => (.ok (embed r s).1, (embed r s).2)

/-- A result needs all operands to stand for something, and the engine to succeed on them. -/
theorem computed_eq_ok {op : Operation F} {s : S} {r : RationalFunction} :
    computed op s = .ok r ↔
      ∃ op₀, op.mapM (reveal · s) = .ok op₀ ∧ (engine s).compute op₀ = .ok r := by
  rw [computed, Failing.bind_eq_ok]
  simp only [Failing.lift_eq_ok]

/-- The engine's sum, in terms of what the operands stand for. -/
theorem computed_add {a b : F} {s : S} {r : RationalFunction} :
    computed (.add a b) s = .ok r ↔
      ∃ x y, reveal a s = .ok x ∧ reveal b s = .ok y ∧ x.add y = .ok r := by
  rw [computed_eq_ok]
  constructor
  · rintro ⟨op₀, hop, hr⟩
    obtain ⟨x, y, hx, hy, rfl⟩ := Failing.bind₂_eq_ok.mp hop
    exact ⟨x, y, hx, hy, hr⟩
  · rintro ⟨x, y, hx, hy, hr⟩
    exact ⟨.add x y, Failing.bind₂_eq_ok.mpr ⟨x, y, hx, hy, rfl⟩, hr⟩

/-- The engine's product, in terms of what the operands stand for. -/
theorem computed_multiply {a b : F} {s : S} {r : RationalFunction} :
    computed (.multiply a b) s = .ok r ↔
      ∃ x y, reveal a s = .ok x ∧ reveal b s = .ok y ∧ x.mul y = .ok r := by
  rw [computed_eq_ok]
  constructor
  · rintro ⟨op₀, hop, hr⟩
    obtain ⟨x, y, hx, hy, rfl⟩ := Failing.bind₂_eq_ok.mp hop
    exact ⟨x, y, hx, hy, hr⟩
  · rintro ⟨x, y, hx, hy, hr⟩
    exact ⟨.multiply x y, Failing.bind₂_eq_ok.mpr ⟨x, y, hx, hy, rfl⟩, hr⟩

/-- The engine's closure, in terms of what the operand stands for. -/
theorem computed_star {a : F} {s : S} {r : RationalFunction} :
    computed (.star a) s = .ok r ↔
      ∃ x, reveal a s = .ok x ∧ x.star (engine s).numVars = .ok r := by
  rw [computed_eq_ok]
  constructor
  · rintro ⟨op₀, hop, hr⟩
    obtain ⟨x, hx, hop⟩ := Failing.bind_eq_ok.mp hop
    cases hop
    exact ⟨x, hx, hr⟩
  · rintro ⟨x, hx, hr⟩
    refine ⟨.star x, ?_, hr⟩
    simp only [Operation.mapM, hx]
    rfl

/-- Operands in the parameters of the engine have results in these parameters. -/
theorem inParameters_of_computed {op : Operation F} {s : S} {r : RationalFunction}
    (hr : computed op s = .ok r)
    (hop : ∀ f ∈ op.operands, ∀ a, reveal f s = .ok a → a.InParameters (engine s).numVars) :
    r.InParameters (engine s).numVars := by
  obtain ⟨op₀, hop₀, hr⟩ := computed_eq_ok.mp hr
  refine Engine.inParameters_compute _ (fun a ha => ?_) hr
  obtain ⟨f, hf, hreveal⟩ := Operation.exists_operand_of_mapM hop₀ ha
  exact hop f hf a hreveal

end LayeredFactory

/-- States that remember more than they store. -/
class Erasable (S : Type) where
  /-- The state without what has been remembered and counted, and with memos off. -/
  erase : S → S
  /-- Everything remembered is true. -/
  Sound : S → Prop
  /-- The operations that the bottom refuses. -/
  refusing : S → Tally Bool

namespace Erasable

variable {S α : Type} [Erasable S]

/-- The outcomes of two computations are the same, up to what they remember. -/
def Alike (x y : α × S) : Prop := x.1 = y.1 ∧ erase x.2 = erase y.2

theorem Alike.refl (x : α × S) : Alike x x := ⟨rfl, rfl⟩

theorem Alike.symm {x y : α × S} (h : Alike x y) : Alike y x := ⟨h.1.symm, h.2.symm⟩

theorem Alike.trans {x y z : α × S} (hxy : Alike x y) (hyz : Alike y z) : Alike x z :=
  ⟨hxy.1.trans hyz.1, hxy.2.trans hyz.2⟩

/-- No operation is refused. -/
def Willing (s : S) : Prop := ∀ op, (refusing s).get op = false

end Erasable

open LayeredFactory Erasable

/-- The outcome of an operation is that of its reference, or it has been refused. -/
def Settles {S F : Type} [LayeredFactory S F] [Erasable S] (op : Operation F) (s : S)
    (x : Except Failure F × S) : Prop :=
  Alike x (reference op s) ∨
    ∃ m, op.memoized? = some m ∧ (refusing s).get m = true ∧
      Alike x (.error (.error (.invalidParameters (.disabled m))), s)

/-- Layers that keep what is stored in them. -/
class Storage (S : Type) (F : outParam Type) [LayeredFactory S F] [Erasable S] : Prop where
  -- looks at the state do not see what is erased
  parameters_erase (s : S) : FunctionFactory.parameters (erase s) = FunctionFactory.parameters s
  refusing_erase (s : S) : refusing (erase s) = refusing s
  reveal_erase (f : F) (s : S) : reveal f (erase s) = reveal f s
  handles_erase (f : F) (s : S) : handles f (erase s) = handles f s
  find?_erase (r : RationalFunction) (s : S) : find? r (erase s) = find? r s
  sizes_erase (s : S) : sizes (erase s) = sizes s
  -- functions that stand for something
  handles_of_reveal {f : F} {s : S} {r : RationalFunction} :
    reveal f s = .ok r → ∃ hs, handles f s = .ok hs
  ask_eq {α : Type} (q : Query α) (f : F) (s : S) :
    FunctionFactory.ask q f s = do ((engine s).answer (← reveal f s) q).mapError .error
  -- storing a rational function
  embed_erase (r : RationalFunction) (s : S) :
    embed r (erase s) = ((embed r s).1, erase (embed r s).2)
  parameters_embed (r : RationalFunction) (s : S) :
    FunctionFactory.parameters (embed r s).2 = FunctionFactory.parameters s
  refusing_embed (r : RationalFunction) (s : S) : refusing (embed r s).2 = refusing s
  reveal_embed (r : RationalFunction) (s : S) : reveal (embed r s).1 (embed r s).2 = .ok r
  reveal_embed_of_reveal {f : F} {s : S} {q : RationalFunction} (r : RationalFunction) :
    reveal f s = .ok q → reveal f (embed r s).2 = .ok q
  embed_of_reveal {f : F} {s : S} {r : RationalFunction} :
    Sound s → reveal f s = .ok r → embed r s = (f, s)
  sound_embed {r : RationalFunction} {s : S} :
    Sound s → r.InParameters (engine s).numVars → Sound (embed r s).2
  -- switches
  erase_setMemoOn? {depth : Nat} {on : Bool} {s s' : S} :
    setMemoOn? depth on s = some s' → erase s' = erase s
  sound_setMemoOn? {depth : Nat} {on : Bool} {s s' : S} :
    setMemoOn? depth on s = some s' → Sound s → Sound s'
  parameters_setFailing (op : Memoized) (on : Bool) (s : S) :
    FunctionFactory.parameters (setFailing op on s) = FunctionFactory.parameters s
  reveal_setFailing (op : Memoized) (on : Bool) (f : F) (s : S) :
    reveal f (setFailing op on s) = reveal f s
  sound_setFailing (op : Memoized) (on : Bool) {s : S} : Sound s → Sound (setFailing op on s)

/-- Layers whose memos and counts cannot be seen in what they return and store. -/
class Transparent (S : Type) (F : outParam Type) [LayeredFactory S F] [Erasable S] : Prop
    extends Storage S F where
  constant_eq (c : Constant) {s : S} :
    Sound s → FunctionFactory.constant c s = embed ((engine s).constant c) s
  renew_eq (f : F) {s : S} :
    Sound s → (renew f).run s = ((reveal f s).mapError .fault |>.map fun _ => f, s)
  settles_apply {op : Operation F} {s : S} : Sound s → (∀ a b, op ≠ .subtract a b) →
    Settles op s ((FunctionFactory.apply op).run s)
  apply_subtract (a b : F) {s : S} : Sound s → Willing s →
    Alike ((FunctionFactory.apply (.subtract a b)).run s)
      ((FunctionFactory.apply (.negate b) >>= fun f => FunctionFactory.apply (.add a f)).run s)
  sound_apply (op : Operation F) {s : S} : Sound s → Sound ((FunctionFactory.apply op).run s).2

/-! ## Later states -/

/-- A later state: the parameters are the same, and every function stands for what it stood for. -/
structure Extends {S F : Type} [LayeredFactory S F] (s s' : S) : Prop where
  parameters : FunctionFactory.parameters s' = FunctionFactory.parameters s
  reveal {f : F} {r : RationalFunction} : reveal f s = .ok r → reveal f s' = .ok r

open Storage Transparent

namespace Extends

variable {S F : Type} [LayeredFactory S F]

theorem refl (s : S) : Extends s s := ⟨rfl, id⟩

/-- Later states of later states are later. -/
theorem trans {s s' s'' : S} (h : Extends s s') (h' : Extends s' s'') : Extends s s'' :=
  ⟨h'.parameters.trans h.parameters, fun hf => h'.reveal (h.reveal hf)⟩

theorem engine {s s' : S} (h : Extends s s') : engine s' = engine s :=
  congrArg Engine.mk h.parameters

/-- What the operands stand for stays, and so does what the engine makes of it. -/
theorem computed {s s' : S} (h : Extends s s') {op : Operation F} {r : RationalFunction}
    (hr : computed op s = .ok r) : computed op s' = .ok r := by
  obtain ⟨op₀, hop₀, hr⟩ := computed_eq_ok.mp hr
  refine computed_eq_ok.mpr ⟨op₀, Operation.mapM_mono hop₀ fun _ _ => h.reveal, ?_⟩
  rw [h.engine]
  exact hr

variable [Erasable S] [Storage S F]

theorem of_embed (r : RationalFunction) (s : S) : Extends s (embed r s).2 :=
  ⟨parameters_embed r s, reveal_embed_of_reveal r⟩

/-- States with the same erasure extend each other. -/
theorem of_erase_eq {s s' : S} (h : erase s = erase s') : Extends s s' where
  parameters := by rw [← parameters_erase s', ← h, parameters_erase]
  reveal hf := by rwa [← reveal_erase, ← h, reveal_erase]

theorem of_setFailing (op : Memoized) (on : Bool) (s : S) :
    Extends s (setFailing op on s) :=
  ⟨parameters_setFailing op on s, fun hf => by rwa [reveal_setFailing]⟩

end Extends

section

variable {S F : Type} [LayeredFactory S F] [Erasable S]

/-- What is refused is not erased. -/
theorem willing_of_erase_eq [Storage S F] {s s' : S} (h : erase s = erase s') (hs : Willing s) :
    Willing s' := by
  intro op
  rw [← refusing_erase, ← h, refusing_erase]
  exact hs op

variable [Storage S F] {s s' : S}

/-- Storing a function refuses nothing. -/
theorem willing_embed (r : RationalFunction) (hs : Willing s) : Willing (embed r s).2 := by
  intro op
  rw [refusing_embed]
  exact hs op

/-- Storing a function in states with the same erasure. -/
theorem alike_embed (r : RationalFunction) (h : erase s = erase s') :
    Alike (embed r s) (embed r s') := by
  have hembed := embed_erase r s
  rw [h, embed_erase r s'] at hembed
  obtain ⟨hresult, hstate⟩ := Prod.mk.inj hembed
  exact ⟨hresult.symm, hstate.symm⟩

end

/-! ## Outcomes of operations -/

namespace Settles

variable {S F : Type} [LayeredFactory S F] [Erasable S]
variable {op : Operation F} {s : S} {x : Except Failure F × S}

/-- **What an operation can do**: it fails and stores nothing, or it stores what the engine makes of
the revealed operands. -/
theorem cases (h : Settles op s x) :
    (∃ e, x.1 = .error e ∧ erase x.2 = erase s) ∨
      ∃ r, computed op s = .ok r ∧ x.1 = .ok (embed r s).1 ∧
        erase x.2 = erase (embed r s).2 := by
  rcases h with ⟨hresult, hstate⟩ | ⟨m, -, -, hresult, hstate⟩
  · -- the outcome of the reference
    unfold reference at hresult hstate
    cases hr : computed op s with
    | error e =>
      rw [hr] at hresult hstate
      exact Or.inl ⟨e, hresult, hstate⟩
    | ok r =>
      rw [hr] at hresult hstate
      exact Or.inr ⟨r, rfl, hresult, hstate⟩
  · -- a refusal
    exact Or.inl ⟨_, hresult, hstate⟩

/-- An outcome that looks like a settled one is settled. -/
theorem of_alike {y : Except Failure F × S} (h : Settles op s x) (hy : Alike y x) :
    Settles op s y := by
  rcases h with h | ⟨m, hm, hrefused, h⟩
  · exact Or.inl (hy.trans h)
  · exact Or.inr ⟨m, hm, hrefused, hy.trans h⟩

/-- An operation that is not refused does what its reference does. -/
theorem alike (h : Settles op s x) (hs : Willing s) : Alike x (reference op s) := by
  rcases h with h | ⟨m, -, hm, -⟩
  · exact h
  · -- no refusals
    rw [hs m] at hm
    cases hm

variable [Storage S F]

/-- A settled operation leads to a later state. -/
theorem later (h : Settles op s x) : Extends s x.2 := by
  rcases h.cases with ⟨e, -, hstate⟩ | ⟨r, -, -, hstate⟩
  · -- nothing stored
    exact .of_erase_eq hstate.symm
  · -- the result stored
    exact (Extends.of_embed r s).trans (.of_erase_eq hstate.symm)

/-- A function that an operation returns stands for what the engine computes. -/
theorem reveal_of_ok {f : F} (h : Settles op s x) (hf : x.1 = .ok f) :
    ∃ r, computed op s = .ok r ∧ reveal f x.2 = .ok r := by
  rcases h.cases with ⟨e, he, -⟩ | ⟨r, hr, hresult, hstate⟩
  · rw [hf] at he
    cases he
  · refine ⟨r, hr, ?_⟩
    rw [Except.ok.inj (hf.symm.trans hresult)]
    exact (Extends.of_erase_eq hstate.symm).reveal (reveal_embed r s)

end Settles

end FunctionCache
