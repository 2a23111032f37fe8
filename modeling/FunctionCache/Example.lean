import FunctionCache.Cache
import FunctionCache.Engine

/-!
# Examples

Three uses of a cache around the engine, as the lines that they print.

* Example 0 — equal functions share a handle, and sums are remembered;
* Example 1 — the probability of reaching the target of a small Markov chain
  with unknown probabilities, by elimination of its states;
* Example 2 — the same functions with memos on and off.
-/

namespace FunctionCache

/-- A line that an example prints. -/
inductive ExampleLine
  | text (line : String)
  /-- The counts of a cache. -/
  | statistics (s : Statistics)
  /-- A line followed by the time that the work for it has taken. -/
  | timed (work : Unit → Except Failure String)

/-- A cache of rational functions. -/
abbrev EngineCache := Cache Engine RationalFunction

namespace Example

/-- Runs an action on a new cache of the functions of these parameters. -/
def withCache {α : Type} (names : List String) (memoOn : Bool) (act : Action EngineCache α) :
    Except Failure α :=
  let cache : EngineCache := .ofContext memoOn (.ofNames names)
  (act.run cache).1

/-- The text of the function behind a handle. -/
def format (h : Handle) : Action EngineCache String := do
  return (← get).context.format (← Cache.resolve h)

/-- The value of a function, as text. -/
def valueText (h : Handle) (point : Point) : Action EngineCache String := fun c =>
  ((FunctionFactory.ask (.value point) h c).map Rational.text, c)

section Markov

variable {S F : Type} [FunctionFactory S F]

/-- The probability of reaching the target from `s₀`, where `p` leads from `s₀` to `s₁` and `1 - p`
to the sink, and `q` from `s₁` to itself, `(1 - q) / 2` to the target and as much to the sink. -/
def reachability : Action S F := do
  let p ← FunctionFactory.apply (.parameter 0)
  let q ← FunctionFactory.apply (.parameter 1)
  let one ← Action.ofState (FunctionFactory.constant .one)
  let half ← Action.ofState (FunctionFactory.constant (.rational (1 / 2)))
  let leave ← FunctionFactory.apply (.subtract one q)
  let direct ← FunctionFactory.apply (.multiply leave half)
  -- the loop of `s₁` is eliminated
  let loops ← FunctionFactory.apply (.star q)
  let onward ← FunctionFactory.apply (.multiply direct loops)
  FunctionFactory.apply (.multiply p onward)

/-- The closure of the product of `1 + v` for all `v`. -/
def closedProduct (vars : List F) : Action S F := do
  let mut product ← Action.ofState (FunctionFactory.constant .one)
  for v in vars do
    let one ← Action.ofState (FunctionFactory.constant .one)
    let factor ← FunctionFactory.apply (.add one v)
    product ← FunctionFactory.apply (.multiply product factor)
  FunctionFactory.apply (.star product)

end Markov

/-- Sums in both orders, and a quotient. -/
def sharing : Except Failure (List ExampleLine) :=
  withCache ["p", "q"] true do
    let p ← FunctionFactory.apply (.parameter 0)
    let q ← FunctionFactory.apply (.parameter 1)
    let sum ← FunctionFactory.apply (.add p q)
    let again ← FunctionFactory.apply (.add q p)
    let ratio ← FunctionFactory.apply (.divide p q)
    let point := Point.ofIntegers [1, 3]
    return [
      .text ("p + q = " ++ sum.text ++ ", q + p = " ++ again.text),
      .text ("p + q as function: " ++ (← format sum)),
      .text ("p/q = " ++ (← format ratio) ++ " at " ++ point.text ++ " is " ++
        (← valueText ratio point)),
      .statistics (← get).statistics]

/-- The Markov chain, twice: the second time every operation is remembered. -/
def markovChain : Except Failure (List ExampleLine) :=
  withCache ["p", "q"] true do
    let result ← reachability
    discard reachability
    let point : Point := ⟨[1 / 2, 1 / 3]⟩
    return [
      .text ("probability to reach target: " ++ (← format result)),
      .text ("at " ++ point.text ++ ": " ++ (← valueText result point))]

/-- The number of functions after the same products many times over. -/
def repeatedProducts (memoOn : Bool) : Except Failure String :=
  withCache ["p", "q", "r"] memoOn do
    let vars ← [0, 1, 2].mapM fun i => FunctionFactory.apply (.parameter i)
    for _ in List.range 200 do
      discard (closedProduct vars)
    let size := (← get).size
    return "use_op_cache = " ++ toString memoOn ++ ": " ++ toString size ++ " functions"

/-- The lines of the example with this number. -/
def lines : Nat → Except Failure (List ExampleLine)
  | 0 => sharing
  | 1 => markovChain
  | 2 => return [true, false].map fun memoOn => .timed fun _ => repeatedProducts memoOn
  | n => return [.text ("example " ++ toString n ++ " not found")]

end Example

end FunctionCache
