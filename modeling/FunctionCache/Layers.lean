import FunctionCache.Cache
import FunctionCache.Engine
import FunctionCache.Metered

/-!
# Factories in layers

At the bottom lies the metered engine, and any number of caches can be put
around it, one around the other. `LayeredFactory` gives access to all layers of
such a stack from its outermost one:

* `embed` — stores a rational function in all caches, the innermost first;
* `find?` — finds a rational function in all caches without storing it;
* `reveal` — the rational function that a function of the outermost layer
  stands for;
* `handles` — its handle in each cache, the outermost first.
-/

namespace FunctionCache

/-- A factory whose functions stand for rational functions, through layers of caches. -/
class LayeredFactory (S : Type) (F : outParam Type) extends FunctionFactory S F where
  embed : RationalFunction → StateM S F
  find? : RationalFunction → S → Option F
  reveal : F → S → Except Fault RationalFunction
  handles : F → S → Except Fault (List Handle)
  /-- A function stored anew in the outermost cache. -/
  renew : F → Action S F
  /-- The function with this handle in the outermost cache, if there is a cache. The handle need
  not stand for anything. -/
  ofHandle? : Handle → S → Option F
  /-- Whether memos are on, and the statistics of each cache, the outermost first. -/
  reports : S → List (Bool × Statistics)
  /-- Switches the memos of the cache at this depth, 0 being the outermost. -/
  setMemoOn? : Nat → Bool → S → Option S
  /-- The calls that reached the engine. -/
  calls : S → Tally Nat
  /-- Makes the engine refuse an operation, or take it again. -/
  setFailing : Memoized → Bool → S → S

namespace LayeredFactory

instance : LayeredFactory (Metered Engine) RationalFunction where
  embed f := pure f
  find? f _ := some f
  reveal f _ := .ok f
  handles _ _ := .ok []
  renew f := pure f
  ofHandle? _ _ := none
  reports _ := []
  setMemoOn? _ _ _ := none
  calls := Metered.calls
  setFailing := Metered.setFailing

variable {S F : Type} [LayeredFactory S F] [BEq F] [LawfulBEq F] [Hashable F]

instance : LayeredFactory (Cache S F) Handle where
  embed f := do Cache.intern (← Cache.onContext (embed f))
  find? f c := do c.table.find? (← find? f c.context)
  reveal h c := do reveal (← c.table.resolve h) c.context
  handles h c := do
    let f ← c.table.resolve h
    return h :: (← handles f c.context)
  renew h := do Action.ofState (Cache.intern (← Cache.resolve h))
  ofHandle? h _ := some h
  reports c := (c.memoOn, c.statistics) :: reports c.context
  setMemoOn? depth on c :=
    match depth with
    | 0 => some (c.setMemoOn on)
    | depth + 1 => return { c with context := ← setMemoOn? depth on c.context }
  calls c := calls c.context
  setFailing op on c := { c with context := setFailing op on c.context }

/-- The engine's text of a function. -/
def format (f : F) (s : S) : Except Fault String :=
  return (← reveal f s).text (FunctionFactory.names s)

end LayeredFactory

/-- A cache around the metered engine. -/
abbrev CachedEngine := Cache (Metered Engine) RationalFunction

/-- A cache around a cache around the metered engine. -/
abbrev TwiceCachedEngine := Cache CachedEngine Handle

end FunctionCache
