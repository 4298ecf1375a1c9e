import SLanguage.Engine.Basic

/-!
Debugging sessions on the engine. An operation names its session by the user and any
name of the program, and the program is looked for first. A session is paid for by its
user, and is recorded when it is stopped.
-/

namespace SLanguage

namespace Engine

def keyFor (engine : Engine) (user program : String) : Option SessionId :=
  (engine.registry.find? program).map fun c => ⟨user, Text.fold c.program.name⟩

def sessionKey (user program : String) : Action SessionId := do
  return ⟨user, Text.fold (← entry program).program.name⟩

/-- Puts a session in the place of the one under the same key. -/
def putSession (key : SessionId) (s : OpenSession) : Action Unit :=
  modifyThe Engine fun engine =>
    { engine with sessions := (key, s) :: engine.sessions.filter (·.1 != key) }

def dropSession (key : SessionId) : Action Unit :=
  modifyThe Engine fun engine =>
    { engine with sessions := engine.sessions.filter (·.1 != key) }

def openSession (user program : String) : Action (SessionId × OpenSession) := do
  let key ← sessionKey user program
  match (← getThe Engine).sessions.lookup key with
  | some s => return (key, s)
  | none => throw (.sessionNotFound user program)

/-- Opens a session in the place of an earlier one on the program. -/
def startSession (user : String) (r : Request) : Action Snapshot := do
  let key ← sessionKey user r.program
  let (p, architecture) ← launch user r
  let engine ← getThe Engine
  let session := Session.start (engine.runFor user engine.config.strategy) p r.inputs
  putSession key {
    session, program := p.name, degree := r.degree, architecture, inputs := r.inputs }
  return session.atStart

def forward (user program : String) : Action Snapshot := do
  let (key, s) ← openSession user program
  let session ← onLedger s.session.forward
  putSession key { s with session }
  return session.current

def back (user program : String) : Action Snapshot := do
  let (key, s) ← openSession user program
  let engine ← getThe Engine
  let (session, ledger) := s.session.back engine.ledger
  set { engine with ledger }
  putSession key { s with session }
  return session.current

/-- The signal of a resumed session: the alarm, if it is set for this session and has
not gone off. -/
def signalFor (engine : Engine) (key : SessionId) : Signal where
  due? := engine.alarm?.bind fun alarm =>
    if engine.ledger.charges < alarm.due ∧ engine.keyFor alarm.user alarm.program = some key
    then some alarm.due else none

def resume (user program : String) (breakpoints : List Nat) : Action Snapshot := do
  let (key, s) ← openSession user program
  let signal := (← getThe Engine).signalFor key
  let (session, failure?) ←
    onLedger (liftM ({ s.session with signal }.resume breakpoints))
  putSession key { s with session }
  match failure? with
  | none => return session.current
  | some cause => throw (.run cause)

def sessionState (user program : String) : Action SessionState := do
  return (← openSession user program).2.session.state

/-- Interrupts a session that is being resumed, and no other: so nothing changes. -/
def cancel (user program : String) : Action Unit := do
  let _ ← openSession user program

/-- Sets the alarm, the next charge counting as the first, in place of an earlier one. -/
def setAlarm (user program : String) (count : Nat) : Action Unit :=
  modifyThe Engine fun engine =>
    { engine with
      alarm? := some { due := engine.ledger.charges + max count 1, user, program } }

/-- Closes a session and records its run as far as it is known. -/
def stopSession (user program : String) : Action Snapshot := do
  let (key, s) ← openSession user program
  dropSession key
  let last := s.session.last
  let _ ← record user {
    number := 0, mode := .debug, program := s.program, degree := s.degree
    architecture := s.architecture, inputs := s.inputs
    outcome := ⟨last.result, last.cycles, last.values⟩ }
  return last

end Engine

end SLanguage
