import FunctionCache.Layers

/-!
# Programs

A program is a list of steps on a layered factory. A step names the functions
that it uses by the numbers of the steps that made them, so one program runs on
the bare engine and on any stack of caches around it.

* `Step` — makes a function, asks about functions, or changes a setting;
* `Answer` — what a step reports: a function is reported by its text, its handle
  in each cache and the sizes of the caches;
* `Session.step`, `Session.run` — a failed step makes no function and stops
  nothing: the next step goes on with the state that it left.
-/

namespace FunctionCache

/-- One step of a program; `Nat` operands are numbers of earlier steps. -/
inductive Step
  | constant (c : Constant)
  | apply (op : Operation Nat)
  /-- The engine's function of a polynomial, stored in all caches. -/
  | polynomial (p : Polynomial)
  /-- The engine's normal form of a fraction, stored in all caches. -/
  | fraction (p q : Polynomial)
  /-- The function stored anew in the outermost cache. -/
  | renew (a : Nat)
  /-- A handle of the outermost cache, valid or not. -/
  | foreign (h : Handle)
  /-- Finds the normal form of a fraction in all caches without storing it. -/
  | find (p q : Polynomial)
  | evaluate (a : Nat) (point : Point) (cancel : Bool)
  | constantValue (a : Nat)
  | check (a : Nat) (point : Point) (strict : Bool)
  | properties (a : Nat)
  /-- The engine's function in full. -/
  | reveal (a : Nat)
  /-- Whether two functions of the outermost layer are the same. -/
  | equal (a b : Nat)
  | setMemo (depth : Nat) (on : Bool)
  | setFailing (op : Memoized) (on : Bool)
  | statistics
  | parameters

/-- The answer to a step. -/
inductive Answer
  /-- A new function: its text, its handles and the sizes of the caches, the outermost first. -/
  | function (text : String) (handles : List Handle) (sizes : List Nat)
  | foreign (h : Handle)
  | found (handles : Option (List Handle))
  | quotient (value : Ratio)
  | check (holds : Bool)
  | equal (same : Bool)
  | properties (values : List (Property × Bool))
  | revealed (f : RationalFunction)
  | done
  | statistics (reports : List (Bool × Statistics)) (calls : Tally Nat)
  | parameters (parameters : List Parameter)

/-- Why a step has no answer. -/
inductive StepError
  | failure (f : Failure)
  /-- An operand is no step that made a function. -/
  | badReference
  /-- A handle without any cache. -/
  | noCache
  /-- A setting of a cache that is not there. -/
  | noSuchLayer
deriving DecidableEq

/-- Computations of one step on the state of the factory. -/
abbrev StepAction (S : Type) := ExceptT StepError (StateM S)

namespace StepAction

variable {S α : Type}

/-- An action of the factory as part of a step. -/
def ofAction (act : Action S α) : StepAction S α := fun s =>
  let (x, s) := act.run s
  (x.mapError .failure, s)

/-- A look at the state of the factory as part of a step. -/
def ofState (look : S → Except Failure α) : StepAction S α := ofAction fun s => (look s, s)

/-- Something that must be there. -/
def ofOption (e : StepError) (x : Option α) : StepAction S α :=
  match x with
  | some a => return a
  | none => throw e

end StepAction

namespace Step

open StepAction LayeredFactory

variable {S F : Type} [LayeredFactory S F]

/-- The report on a new function. -/
def report (f : F) (s : S) : Except Failure Answer := do
  let text ← format f s
  let handles ← handles f s
  return .function text handles ((reports s).map fun r => r.2.functions)

/-- Makes a function and reports on it. -/
def making (act : StepAction S F) : StepAction S (Option F × Answer) := do
  let f ← act
  return (some f, ← ofState (report f))

/-- Asks a question about a function. -/
def asking {α : Type} (q : Query α) (f : F) : StepAction S α := ofState (FunctionFactory.ask q f)

/-- The function that the step with this number made. -/
def operand (made : Array (Option F)) (a : Nat) : StepAction S F :=
  ofOption .badReference made[a]?.join

/-- Performs a step: the function that it makes, if it makes one, and its answer. `made` holds what
the earlier steps made. -/
def perform [BEq F] (made : Array (Option F)) : Step → StepAction S (Option F × Answer)
  | constant c => making (ofAction (Action.ofState (FunctionFactory.constant c)))
  | apply op => making do
    let op ← op.mapM (operand made)
    ofAction (FunctionFactory.apply op)
  | polynomial p => making do
    let n := FunctionFactory.numVariables (← get)
    ofAction (Action.ofState (embed (RationalFunction.ofPolynomial n p)))
  | fraction p q => making do
    let f ← ofState fun _ => RationalFunction.ofFraction p q
    ofAction (Action.ofState (embed f))
  | renew a => making do ofAction (LayeredFactory.renew (← operand made a))
  | foreign h => do
    let f ← ofOption .noCache (ofHandle? h (← get))
    return (some f, .foreign h)
  | find p q => do
    let f ← ofState fun _ => RationalFunction.ofFraction p q
    match find? f (← get) with
    | none => return (none, .found none)
    | some f => return (none, .found (some (← ofState fun s => handles f s)))
  | evaluate a point cancel => do
    let f ← operand made a
    -- a value in lowest terms is reported as a quotient, too
    if cancel then return (none, .quotient (.ofRat (← asking (.value point) f)))
    else return (none, .quotient (← asking (.quotient point) f))
  | constantValue a => do
    return (none, .quotient (.ofRat (← asking .constantValue (← operand made a))))
  | check a point strict => do
    return (none, .check (← asking (.check point strict) (← operand made a)))
  | properties a => do
    let f ← operand made a
    return (none, .properties (← Property.all.mapM fun p => return (p, ← asking (.property p) f)))
  | reveal a => do
    let f ← operand made a
    return (none, .revealed (← ofState fun s => LayeredFactory.reveal f s))
  | equal a b => do
    let f ← operand made a
    let g ← operand made b
    return (none, .equal (f == g))
  | setMemo depth on => do
    set (← ofOption .noSuchLayer (setMemoOn? depth on (← get)))
    return (none, .done)
  | setFailing op on => do
    modify (LayeredFactory.setFailing op on)
    return (none, .done)
  | statistics => do
    let s ← get
    return (none, .statistics (reports s) (calls s))
  | parameters => do
    return (none, .parameters (FunctionFactory.parameters (← get)))

end Step

/-- A factory and what each step so far made of it. -/
structure Session (S F : Type) where
  factory : S
  made : Array (Option F)

namespace Session

variable {S F : Type} [LayeredFactory S F] [BEq F]

/-- A session without steps so far. -/
def start (factory : S) : Session S F := ⟨factory, #[]⟩

/-- Counts a step that does nothing. -/
def skip (s : Session S F) : Session S F := { s with made := s.made.push none }

/-- Performs a step. -/
def step (s : Session S F) (step : Step) : Except StepError Answer × Session S F :=
  match (step.perform s.made).run s.factory with
  | (.ok (f, answer), factory) => (.ok answer, ⟨factory, s.made.push f⟩)
  | (.error e, factory) => (.error e, ⟨factory, s.made.push none⟩)

/-- Performs the steps one after the other. -/
def run (s : Session S F) : List Step → List (Except StepError Answer) × Session S F
  | [] => ([], s)
  | first :: rest =>
    let (answer, s) := s.step first
    let (answers, s) := s.run rest
    (answer :: answers, s)

end Session

end FunctionCache
