import SLanguage.Engine.Error
import SLanguage.History
import SLanguage.Session

/-!
The engine: the registered programs, the debugging sessions of the users, their credits
and their past runs. A user has at most one session on a program. An action that fails
has still made the changes before its failure: charges that were tried, and degrees
that were worked out.
-/

namespace SLanguage

/-- What holds for runs and sessions that do not ask for anything else. -/
structure Config where
  architecture? : Option Architecture := none
  strategy : Strategy := .interpret
  callDepth : UInt64 := 1024
deriving DecidableEq, Repr

/-- What a session, and in part a run, is asked for with. -/
structure Request where
  program : String
  degree : UInt64 := 0
  inputs : List Int64 := []
  architecture? : Option Architecture := none
deriving DecidableEq, Repr

structure RunRequest extends Request where
  strategy? : Option Strategy := none
deriving DecidableEq, Repr

structure RunResponse where
  outcome : Outcome
  degree : UInt64
  architecture : Architecture
  number : UInt64
deriving DecidableEq, Repr

/-- Whose session it is, and on which program, by its folded name. -/
structure SessionId where
  user : String
  program : String
deriving DecidableEq, Repr

/-- A session, with what its run is recorded as. -/
structure OpenSession where
  session : Session
  program : String
  degree : UInt64
  architecture : Architecture
  inputs : List Int64

/-- An appointment to cancel a session when the ledger has counted so many charges.
It comes to nothing unless the session is being resumed then. -/
structure Alarm where
  due : Nat
  user : String
  program : String

structure Engine where
  config : Config := {}
  /-- How many steps a program may make before its run counts as unfinished. -/
  stepLimit : Nat
  registry : Registry := {}
  sessions : List (SessionId × OpenSession) := []
  ledger : Ledger := .empty
  history : History := {}
  alarm? : Option Alarm := none

namespace Engine

abbrev Action (α : Type) := ExceptT ActionError (StateT Engine Option) α

def ofAttempt {ε α : Type} (wrap : ε → ActionError) (a : Attempt ε α) : Action α :=
  ExceptT.mk fun engine => a.run.map fun outcome => (outcome.mapError wrap, engine)

/-- Does paid work on the ledger of the engine. -/
def onLedger {α : Type} (work : Metered RunError α) : Action α :=
  ExceptT.mk fun engine =>
    (work.run engine.ledger).map fun (outcome, ledger) =>
      (outcome.mapError .run, { engine with ledger })

def charge (user : String) (amount : Nat) : Action Unit :=
  onLedger ((Metered.pay (some user) amount).adapt .credits)

/-! Registration. -/

def register (add : Registry → Except RegistrationError (Program × Registry)) : Action Unit := do
  let engine ← getThe Engine
  match add engine.registry with
  | .ok (_, registry) => set { engine with registry }
  | .error cause => throw (.registry cause)

/-! Degrees. -/

/-- A main program by its name or display name. -/
def entry (name : String) : Action Cached := do
  match (← getThe Engine).registry.find? name with
  | some c => return c
  | none => throw (.programNotFound name)

/-- Every degree of a main program, which are worked out once. -/
def expansion (name : String) : Action Expansion := do
  let c ← entry name
  let registry := (← getThe Engine).registry
  let (e, c) ← ofAttempt .expand (c.expand registry.functions)
  modifyThe Engine fun engine =>
    { engine with registry := { registry with mains := registry.mains.replace name c } }
  return e

def topDegree (name : String) : Action Nat :=
  return (← expansion name).topDegree

/-- The highest degree if the degrees are worked out already, and 0 otherwise. -/
def knownTopDegree (name : String) : Action Nat :=
  return (← entry name).topDegree

def generation (name : String) (degree : Nat) : Action Program := do
  ofAttempt .expand (.ofExcept ((← expansion name).generation degree))

/-! Runs. -/

/-- The program of a request at its degree, on an architecture that runs it and whose
fee is paid. -/
def launch (user : String) (r : Request) : Action (Program × Architecture) := do
  let p ← generation r.program r.degree.toNat
  let required := p.requiredArchitecture
  let config := (← getThe Engine).config
  let architecture := (r.architecture? <|> config.architecture?).getD required
  unless required ≤ architecture do throw (.unsupportedArchitecture architecture required)
  charge user architecture.runCost
  return (p, architecture)

/-- How a program is run for a user. -/
def runFor (engine : Engine) (user : String) (strategy : Strategy) : Run where
  evaluator := {
    functions := engine.registry.functions, strategy
    depthLimit := engine.config.callDepth.toNat
    stepLimit := engine.stepLimit }
  payer? := some user

def record (user : String) (r : PastRun) : Action UInt64 := do
  let engine ← getThe Engine
  let (number, history) := engine.history.record user r
  set { engine with history }
  return number

/-- Runs a main program to its end and records the run. -/
def perform (user : String) (r : RunRequest) : Action RunResponse := do
  let (p, architecture) ← launch user r.toRequest
  let engine ← getThe Engine
  let run := engine.runFor user (r.strategy?.getD engine.config.strategy)
  let outcome ← onLedger (run.perform p r.inputs)
  let number ← record user {
    number := 0, mode := .execution, program := p.name, degree := r.degree, architecture
    inputs := r.inputs, outcome }
  return { outcome, degree := r.degree, architecture, number }

end Engine

end SLanguage
