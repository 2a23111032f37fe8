import FunctionCache.Proofs.Programs.Transparency
import FunctionCache.Proofs.RationalFunction.Laws

/-!
# Laws of arithmetic

Functions with the same values can differ, so few laws of arithmetic hold for
their representations: the order of two operands makes no difference, 0 and 1
are units, and a function cancels itself. A cache stores a function once, so
what holds of representations holds of handles, too.

* `FunctionFactory.ObeysLaws` — the laws, for the functions of any factory;
* `Cache.Ready` — a cache that does what the engine does, up to handles;
* `Cache.Ready.result_of_stored` — a result that is stored already has its handle;
* `FunctionFactory.ObeysLaws.of_engine` — from representations to handles;
* `Engine.arithmetic_obeys_laws` — the result.
-/

namespace FunctionCache

open LayeredFactory Erasable Storage Transparent

namespace FunctionFactory

variable {S F : Type} [FunctionFactory S F]

/-- What an operation returns. -/
def result (op : Operation F) (s : S) : Except Failure F := ((apply op).run s).1

/-- The state that an operation leaves. -/
def after (op : Operation F) (s : S) : S := ((apply op).run s).2

/-- The results are the same, or an exponent leaves its range for both. -/
def SameOrOverflow (x y : Except Failure F) : Prop :=
  x = y ∧ ∀ failure, x = .error failure → failure = .fault .exponentOverflow

/-- The laws for `a` and `b`, where `a` stands for the rational function `f` and `zero` and `one`
for the constants. Of two operations the second one is done after the first. -/
structure ObeysLaws (s : S) (zero one a b : F) (f : RationalFunction) : Prop where
  add_comm : SameOrOverflow (result (.add a b) s) (result (.add b a) (after (.add a b) s))
  mul_comm : SameOrOverflow (result (.multiply a b) s)
    (result (.multiply b a) (after (.multiply a b) s))
  -- units
  add_zero : result (.add a zero) s = .ok a
  mul_one : result (.multiply a one) s = .ok a
  div_one : result (.divide a one) s = .ok a
  -- finite functions
  sub_self : f.IsFinite → result (.subtract a a) s = .ok zero
  mul_zero : f.IsFinite → result (.multiply a zero) s = .ok zero
  -- and of these, all but 0
  one_div_one_div : f.IsFinite → f ≠ .zero (numVariables s) →
    ∃ r, result (.divide one a) s = .ok r ∧
      result (.divide one r) (after (.divide one a) s) = .ok a
  div_self : f.IsFinite → f ≠ .zero (numVariables s) →
    result (.divide a a) s = .ok one ∨
      result (.divide a a) s = .error (.fault .exponentOverflow)

end FunctionFactory

open FunctionFactory

/-! ## Representations -/

/-- **The laws hold of representations** in normal form. -/
theorem Engine.obeysLaws {e : Engine} {a b : RationalFunction} (ha : a.InNormalForm e.numVars)
    (hb : b.InNormalForm e.numVars) : ObeysLaws e (e.constant .zero) (e.constant .one) a b a where
  add_comm := ⟨RationalFunction.add_comm ha.inParameters hb.inParameters,
    fun _ hx => (RationalFunction.overflowsIff_add ha hb).eq_overflow hx⟩
  mul_comm := ⟨RationalFunction.mul_comm ha.inParameters hb.inParameters,
    fun _ hx => (RationalFunction.overflowsIff_mul ha hb).eq_overflow hx⟩
  add_zero := RationalFunction.add_zero ha
  mul_one := RationalFunction.mul_one ha
  div_one := RationalFunction.div_one ha
  sub_self := RationalFunction.sub_self ha
  mul_zero := RationalFunction.mul_zero ha
  one_div_one_div hfinite hne :=
    RationalFunction.one_div_one_div ha hfinite ((RationalFunction.isZero_eq_false_iff ha).mpr hne)
  div_self hfinite hne :=
    RationalFunction.div_self ha hfinite ((RationalFunction.isZero_eq_false_iff ha).mpr hne)

/-! ## Handles -/

namespace Cache

variable {S F : Type} [LayeredFactory S F] [BEq F] [LawfulBEq F] [Hashable F] [Erasable S]

/-- A cache around the engine `e` that remembers nothing wrong and refuses nothing. -/
structure Ready (e : Engine) (c : Cache S F) : Prop where
  faithful : c.Faithful
  willing : Willing c
  engine_eq : engine c = e

variable [Transparent S F] {e : Engine} {c : Cache S F} {op op' : Operation Handle}
variable {op₀ op₀' : Operation RationalFunction} {f : RationalFunction} {h : Handle} {x : Failure}

namespace Ready

/-- **An operation** fails as it does in the engine, or returns a handle of what the engine
computes. -/
theorem result_cases (hc : c.Ready e) (hop : op.mapM (reveal · c) = .ok op₀) :
    (after op c).Ready e ∧ Extends c (after op c) ∧
      ((∃ x, e.compute op₀ = .error x ∧ result op c = .error x) ∨
        ∃ f h, e.compute op₀ = .ok f ∧ result op c = .ok h ∧ reveal h (after op c) = .ok f) := by
  obtain ⟨hfaithful, hw, rfl⟩ := hc
  have hbare := Metered.willing_ofContext (engine c)
  have hjoint : (Link.toEngine S).Joint c (Metered.ofContext (engine c)) :=
    ⟨rfl, hfaithful, trivial, hw, hbare⟩
  -- each handle is paired with what it stands for
  obtain ⟨pairs, rfl, rfl, hpairs⟩ := Operation.mapM_eq_ok.mp hop
  have hcoupled := Link.coupled_apply hjoint hpairs
  -- without a cache there is nothing but the result
  have hresult := Metered.result_eq (pairs.map Prod.snd) hbare
  unfold result after
  rcases hrun : (FunctionFactory.apply (pairs.map Prod.fst)).run c with ⟨y, c'⟩
  rcases hrun' : (FunctionFactory.apply (pairs.map Prod.snd)).run
    (Metered.ofContext (engine c)) with ⟨y', m⟩
  rw [hrun, hrun'] at hcoupled
  rw [hrun'] at hresult
  cases hcoupled with
  | error joint later =>
    exact ⟨⟨joint.sound, joint.willing, later.engine⟩, later, Or.inl ⟨_, hresult.symm, rfl⟩⟩
  | ok joint later _ hreveal =>
    exact ⟨⟨joint.sound, joint.willing, later.engine⟩, later,
      Or.inr ⟨_, _, hresult.symm, rfl, hreveal⟩⟩

/-- What the engine fails in, a cache fails in. -/
theorem result_of_error (hc : c.Ready e) (hop : op.mapM (reveal · c) = .ok op₀)
    (hx : e.compute op₀ = .error x) : result op c = .error x := by
  obtain ⟨-, -, ⟨y, hy, hresult⟩ | ⟨f, -, hf, -⟩⟩ := hc.result_cases hop
  · cases hx.symm.trans hy
    exact hresult
  · cases hx.symm.trans hf

/-- What the engine makes, a cache returns a handle of. -/
theorem result_of_ok (hc : c.Ready e) (hop : op.mapM (reveal · c) = .ok op₀)
    (hf : e.compute op₀ = .ok f) : ∃ h, result op c = .ok h ∧ reveal h (after op c) = .ok f := by
  obtain ⟨-, -, ⟨x, hx, -⟩ | ⟨f', h, hf', hresult⟩⟩ := hc.result_cases hop
  · cases hf.symm.trans hx
  · cases hf.symm.trans hf'
    exact ⟨h, hresult⟩

/-- **A result that is stored already** has its handle. -/
theorem result_of_stored (hc : c.Ready e) (hop : op.mapM (reveal · c) = .ok op₀)
    (hf : e.compute op₀ = .ok f) (hh : reveal h c = .ok f) : result op c = .ok h := by
  obtain ⟨hafter, hlater, -⟩ := hc.result_cases hop
  obtain ⟨h', hresult, hh'⟩ := hc.result_of_ok hop hf
  rw [hresult, hafter.faithful.reveal_inj hh' (hlater.reveal hh)]

/-- Whatever the engine can make can be stored. -/
theorem exists_stored (hc : c.Ready e) {fs : List RationalFunction}
    (hfs : ∀ f ∈ fs, e.Constructible f) :
    ∃ c' : Cache S F, c'.Ready e ∧ ∀ f ∈ fs, ∃ h, reveal h c' = .ok f := by
  induction fs with
  | nil => exact ⟨c, hc, by simp⟩
  | cons f fs ih =>
    obtain ⟨hf, hfs⟩ := List.forall_mem_cons.mp hfs
    obtain ⟨c', hc', hstored⟩ := ih hfs
    have hparameters : f.InParameters (engine c').numVars := by
      rw [hc'.engine_eq]
      exact (Engine.constructible_inNormalForm hf).inParameters
    refine ⟨(embed f c').2, ⟨sound_embed (S := Cache S F) hc'.faithful hparameters,
      willing_embed f hc'.willing, (Extends.of_embed f c').engine.trans hc'.engine_eq⟩, ?_⟩
    -- what was stored before is still stored
    refine List.forall_mem_cons.mpr ⟨⟨_, reveal_embed f c'⟩, fun g hg => ?_⟩
    obtain ⟨h, hh⟩ := hstored g hg
    exact ⟨h, reveal_embed_of_reveal f hh⟩

/-- Operations with one result in the engine return one handle, in whatever order. -/
theorem sameOrOverflow (hc : c.Ready e) (hop : op.mapM (reveal · c) = .ok op₀)
    (hop' : op'.mapM (reveal · c) = .ok op₀')
    (h : SameOrOverflow (e.compute op₀) (e.compute op₀')) :
    SameOrOverflow (result op c) (result op' (after op c)) := by
  obtain ⟨hsame, hoverflow⟩ := h
  obtain ⟨hafter, hlater, -⟩ := hc.result_cases hop
  -- the operands stand for the same functions later on
  have hop'' := Operation.mapM_mono hop' fun _ _ => hlater.reveal
  cases hcompute : e.compute op₀ with
  | error x =>
    rw [hc.result_of_error hop hcompute, hafter.result_of_error hop'' (hsame ▸ hcompute)]
    exact ⟨rfl, fun failure hx => hoverflow failure (hcompute.trans (Except.error.inj hx ▸ rfl))⟩
  | ok f =>
    obtain ⟨h, hresult, hh⟩ := hc.result_of_ok hop hcompute
    rw [hresult, hafter.result_of_stored hop'' (hsame ▸ hcompute) hh]
    exact ⟨rfl, fun failure hx => by cases hx⟩

end Ready

/-- A new cache is ready. -/
theorem ready_ofContext (memoOn : Bool) {s : S} (hs : Sound s) (hw : Willing s) :
    (ofContext memoOn s).Ready (engine s) where
  faithful := faithful_ofContext memoOn hs
  willing := willing_ofContext memoOn hs hw
  engine_eq := congrArg Engine.mk (parameters_ofContext memoOn hs)

end Cache

section

variable {S F : Type} [LayeredFactory S F] [BEq F] [LawfulBEq F] [Hashable F] [Erasable S]
variable [Transparent S F] {e : Engine} {c : Cache S F} {zero one h k : Handle}
variable {a b : RationalFunction}

/-- **Laws of representations are laws of handles.** -/
theorem FunctionFactory.ObeysLaws.of_engine (hc : c.Ready e)
    (hzero : reveal zero c = .ok (e.constant .zero)) (hone : reveal one c = .ok (e.constant .one))
    (hh : reveal h c = .ok a) (hk : reveal k c = .ok b)
    (laws : ObeysLaws e (e.constant .zero) (e.constant .one) a b a) :
    ObeysLaws c zero one h k a := by
  have hne : a ≠ .zero (numVariables c) → a ≠ .zero (numVariables e) := by
    rw [← hc.engine_eq]
    exact id
  exact
    { add_comm := hc.sameOrOverflow (Failing.bind₂_eq_ok.mpr ⟨a, b, hh, hk, rfl⟩)
        (Failing.bind₂_eq_ok.mpr ⟨b, a, hk, hh, rfl⟩) laws.add_comm
      mul_comm := hc.sameOrOverflow (Failing.bind₂_eq_ok.mpr ⟨a, b, hh, hk, rfl⟩)
        (Failing.bind₂_eq_ok.mpr ⟨b, a, hk, hh, rfl⟩) laws.mul_comm
      add_zero := hc.result_of_stored (Failing.bind₂_eq_ok.mpr ⟨a, _, hh, hzero, rfl⟩)
        laws.add_zero hh
      mul_one := hc.result_of_stored (Failing.bind₂_eq_ok.mpr ⟨a, _, hh, hone, rfl⟩)
        laws.mul_one hh
      div_one := hc.result_of_stored (Failing.bind₂_eq_ok.mpr ⟨a, _, hh, hone, rfl⟩)
        laws.div_one hh
      sub_self := fun hfinite => hc.result_of_stored
        (Failing.bind₂_eq_ok.mpr ⟨a, a, hh, hh, rfl⟩) (laws.sub_self hfinite) hzero
      mul_zero := fun hfinite => hc.result_of_stored
        (Failing.bind₂_eq_ok.mpr ⟨a, _, hh, hzero, rfl⟩) (laws.mul_zero hfinite) hzero
      one_div_one_div := fun hfinite hnonzero => by
        obtain ⟨r, hr, hrr⟩ := laws.one_div_one_div hfinite (hne hnonzero)
        have hop : (Operation.divide one h).mapM (reveal · c) = .ok (.divide (e.constant .one) a) :=
          Failing.bind₂_eq_ok.mpr ⟨_, a, hone, hh, rfl⟩
        obtain ⟨hafter, hlater, -⟩ := hc.result_cases hop
        obtain ⟨g, hresult, hg⟩ := hc.result_of_ok hop hr
        -- the second division is done on the handle of the first
        have hop' : (Operation.divide one g).mapM (reveal · (after (.divide one h) c)) =
            .ok (.divide (e.constant .one) r) :=
          Failing.bind₂_eq_ok.mpr ⟨_, r, hlater.reveal hone, hg, rfl⟩
        exact ⟨g, hresult, hafter.result_of_stored hop' hrr (hlater.reveal hh)⟩
      div_self := fun hfinite hnonzero => by
        have hop : (Operation.divide h h).mapM (reveal · c) = .ok (.divide a a) :=
          Failing.bind₂_eq_ok.mpr ⟨a, a, hh, hh, rfl⟩
        rcases laws.div_self hfinite (hne hnonzero) with hf | hx
        · exact Or.inl (hc.result_of_stored hop hf hone)
        · exact Or.inr (hc.result_of_error hop hx) }

end

namespace Engine

variable {e : Engine} {a b : RationalFunction}

/-- **Commutativity, units and inverses**: the laws hold of all functions that the engine can make,
infinities and NaN included, and of their handles in every cache around it that remembers nothing
wrong and refuses nothing. -/
theorem arithmetic_obeys_laws (ha : e.Constructible a) (hb : e.Constructible b) :
    ObeysLaws e (e.constant .zero) (e.constant .one) a b a ∧
      ∀ {S F : Type} [LayeredFactory S F] [BEq F] [LawfulBEq F] [Hashable F] [Erasable S]
        [Transparent S F] {c : Cache S F} {zero one h k : Handle}, c.Ready e →
        reveal zero c = .ok (e.constant .zero) → reveal one c = .ok (e.constant .one) →
        reveal h c = .ok a → reveal k c = .ok b → ObeysLaws c zero one h k a := by
  have laws := obeysLaws (constructible_inNormalForm ha) (constructible_inNormalForm hb)
  exact ⟨laws, fun hc hzero hone hh hk => .of_engine hc hzero hone hh hk laws⟩

/-- The laws for `1 / x` and an infinity, as representations and as handles in some cache. The
quotient of `1 / x` by itself is 1. -/
theorem arithmetic_obeys_laws_of_reciprocal :
    ObeysLaws (ofNames ["x"]) (.zero 1) (.one 1) (.fraction (.one 1) (.ofTerms 1 [([1], 1)]))
        .posInf (.fraction (.one 1) (.ofTerms 1 [([1], 1)])) ∧
      (∃ (c : CachedEngine) (zero one h k : Handle), reveal k c = .ok .posInf ∧
        ObeysLaws c zero one h k (.fraction (.one 1) (.ofTerms 1 [([1], 1)]))) ∧
      (ofNames ["x"]).compute (.divide (.fraction (.one 1) (.ofTerms 1 [([1], 1)]))
        (.fraction (.one 1) (.ofTerms 1 [([1], 1)]))) = .ok (.one 1) := by
  have hx : (Polynomial.ofTerms 1 [([1], 1)]).WellFormed 1 :=
    Polynomial.wellFormed_ofTerms (by decide)
  have ha : (ofNames ["x"]).Constructible (.fraction (.one 1) (.ofTerms 1 [([1], 1)])) :=
    .fraction (Polynomial.wellFormed_one 1) hx (by decide +kernel)
  obtain ⟨hlaws, hhandles⟩ := arithmetic_obeys_laws ha (.constant .posInf)
  have hready := Cache.ready_ofContext true trivial (Metered.willing_ofContext (ofNames ["x"]))
  have hmade : ∀ f ∈ [.zero 1, .one 1, .posInf,
      .fraction (.one 1) (.ofTerms 1 [([1], 1)])], (ofNames ["x"]).Constructible f := by
    simp only [List.forall_mem_cons]
    exact ⟨.constant .zero, .constant .one, .constant .posInf, ha, by simp⟩
  obtain ⟨c, hc, hstored⟩ := hready.exists_stored hmade
  simp only [List.forall_mem_cons] at hstored
  obtain ⟨⟨zero, hzero⟩, ⟨one, hone⟩, ⟨k, hk⟩, ⟨h, hh⟩, -⟩ := hstored
  exact ⟨hlaws, ⟨c, zero, one, h, k, hk, hhandles hc hzero hone hh hk⟩, by decide +kernel⟩

end Engine

end FunctionCache
