import SLanguage.Engine.Sessions
import SLanguage.Proofs.Registry

/-! What is asked of an engine. Users run and debug programs, look at their runs and at their
credits, and add to them. One thing is done after the other, and what fails is answered with
its reason. -/

namespace SLanguage

namespace Engine

/-- What a user asks for. -/
inductive Command where
  | run (r : RunRequest)
  | start (r : Request)
  | forward (program : String)
  | back (program : String)
  | resume (program : String) (breakpoints : List Nat)
  | state (program : String)
  | cancel (program : String)
  | stop (program : String)
  | degrees (program : String)
  | runs
  | balance
  | deposit (amount : Nat)

inductive Reply where
  | done
  | response (r : RunResponse)
  | snapshot (s : Snapshot)
  | state (s : SessionState)
  | degree (top : Nat)
  | runs (past : List PastRun)
  | balance (credits? : Option Nat)

def act (user : String) : Command → Action Reply
  | .run r => return .response (← perform user r)
  | .start r => return .snapshot (← startSession user r)
  | .forward program => return .snapshot (← forward user program)
  | .back program => return .snapshot (← back user program)
  | .resume program breakpoints => return .snapshot (← resume user program breakpoints)
  | .state program => return .state (← sessionState user program)
  | .cancel program => do
    cancel user program
    return .done
  | .stop program => return .snapshot (← stopSession user program)
  | .degrees program => return .degree (← topDegree program)
  | .runs => return .runs ((← getThe Engine).history.runs user)
  | .balance => return .balance ((← getThe Engine).ledger.balance? user)
  | .deposit amount => do
    modifyThe Engine fun engine => { engine with ledger := engine.ledger.deposit user amount }
    return .balance ((← getThe Engine).ledger.balance? user)

/-- What may be done with an engine: a user asks for something, something is registered, or an
alarm is set. -/
inductive Deed where
  | of (user : String) (c : Command)
  | main (d : Definition)
  | function (d : Definition)
  | bundle (b : Bundle)
  | alarm (user program : String) (count : Nat)

def Deed.action : Deed → Action Reply
  | .of user c => act user c
  | .main d => do
    register (·.enterMain d)
    return .done
  | .function d => do
    register (·.enterFunction d)
    return .done
  | .bundle b => do
    register (·.enterBundle b)
    return .done
  | .alarm user program count => do
    setAlarm user program count
    return .done

/-- Does one thing after the other, each on the engine that the one before has left. -/
def play : List (Action Reply) → Engine → Option (List (Except ActionError Reply) × Engine)
  | [], engine => some ([], engine)
  | action :: rest, engine =>
    (action.run engine).bind fun (answer, engine) =>
      (play rest engine).map fun (answers, engine) => (answer :: answers, engine)

theorem play_cons_eq_some {action : Action Reply} {rest : List (Action Reply)}
    {answers : List (Except ActionError Reply)} {engine last : Engine}
    (played : play (action :: rest) engine = some (answers, last)) :
    ∃ answer between others, action.run engine = some (answer, between) ∧
      play rest between = some (others, last) ∧ answers = answer :: others := by
  obtain ⟨⟨answer, between⟩, ran, played⟩ := Option.bind_eq_some_iff.1 played
  obtain ⟨⟨others, _⟩, played, same⟩ := Option.map_eq_some_iff.1 played
  cases same
  exact ⟨answer, between, others, ran, played, rfl⟩

/-- A main program that counts its result up once. -/
def bumping : Definition where
  name := "M"
  records := [{ name := "INCREASE", subject := "y" }]

def bump : Program where
  header := ⟨"M", "M", .main⟩
  degree := 0
  instructions := #[{ subject := .result, op := .increase, number := 1 }]
  positions := ∅
  inputs := ∅
  works := ∅
  names := {}

/-- A registry that the program has been entered in. -/
def bumped : Registry := ⟨⟨[(["m"], { program := bump })]⟩, ∅⟩

theorem enterMain_bumping : Registry.enterMain {} bumping = .ok (bump, bumped) := by
  have callees : bump.callees = [] := by decide +kernel
  have checked : Registry.check ∅ [bump] = .ok () := by
    rw [Registry.check, CallGraph.check, CallGraph.checkFrom, if_neg List.not_mem_nil, callees,
      CallGraph.walk]
    rfl
  exact bind_eq_ok.2 ⟨bump, rfl, bind_eq_ok.2 ⟨_, rfl, bind_eq_ok.2 ⟨_, checked, rfl⟩⟩⟩

theorem after_bumping : Registry.after {} (.main bumping) = bumped := by
  rw [Registry.after, enterMain_bumping]
  rfl

end Engine

end SLanguage
