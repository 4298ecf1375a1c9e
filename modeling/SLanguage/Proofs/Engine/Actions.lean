import SLanguage.Engine.Sessions
import SLanguage.Proofs.Metering
import SLanguage.Proofs.Registry
import SLanguage.Proofs.Session.Running

/-! Actions of the engine, unfolded: what each of them answers, and the engine it leaves.
Registering and asking for degrees are the events of a registry. -/

namespace SLanguage

namespace Engine

variable {α β ε : Type}

theorem run_get_bind (f : Engine → Action β) (engine : Engine) :
    (getThe Engine >>= f).run engine = (f engine).run engine := rfl

theorem run_ofAttempt (wrap : ε → ActionError) (a : Attempt ε α) (engine : Engine) :
    (ofAttempt wrap a).run engine =
      a.run.map fun outcome => (outcome.mapError wrap, engine) := rfl

/-- A program is looked up, and nothing changes. -/
theorem run_entry (name : String) (engine : Engine) :
    (entry name).run engine =
      some ((engine.registry.find? name).elim (.error (.programNotFound name)) .ok, engine) := by
  rw [entry, run_get_bind]
  cases engine.registry.find? name <;> rfl

/-- An answer of the registry is passed on, and its registry is taken over. -/
theorem run_register (add : Registry → Except RegistrationError (Program × Registry))
    (engine : Engine) :
    (register add).run engine =
      some (((add engine.registry).map fun _ => ()).mapError .registry,
        { engine with registry := engine.registry.settle (add engine.registry) }) := by
  rw [register, run_get_bind]
  cases add engine.registry <;> rfl

/-- Where nothing is registered nothing changes. -/
theorem eq_of_register_error {engine engine' : Engine} {cause : ActionError}
    {add : Registry → Except RegistrationError (Program × Registry)}
    (ran : (register add).run engine = some (.error cause, engine')) : engine' = engine := by
  rw [run_register] at ran
  cases given : add engine.registry with
  | error _ =>
    rw [given] at ran
    cases ran
    rfl
  | ok entered =>
    rw [given] at ran
    cases ran

/-- Asking for the degrees of a program works them out, if it is there, and keeps them. -/
theorem run_expansion (name : String) (engine : Engine) :
    (expansion name).run engine =
      match engine.registry.find? name with
      | none => some (.error (.programNotFound name), engine)
      | some c => (c.expand engine.registry.functions).run.map fun outcome =>
        ((outcome.map Prod.fst).mapError .expand,
          { engine with registry := engine.registry.after (.degrees name) }) := by
  rw [expansion, Keeping.run_bind, run_entry, Registry.after]
  cases engine.registry.find? name with
  | none => rfl
  | some c =>
    simp only [Option.elim_some]
    rw [run_get_bind, Keeping.run_bind, run_ofAttempt]
    cases (c.expand engine.registry.functions).run with
    | none => rfl
    | some outcome => cases outcome <;> rfl

theorem run_onLedger (work : Metered RunError α) (engine : Engine) :
    (onLedger work).run engine = (work.run engine.ledger).map fun (outcome, ledger) =>
      (outcome.mapError .run, { engine with ledger }) := rfl

/-- An answer may be put into other words. -/
theorem run_reply (f : α → β) (action : Action α) (engine : Engine) :
    (do return f (← action) : Action β).run engine =
      (action.run engine).map fun (answer, left) => (answer.map f, left) := by
  rw [Keeping.run_bind]
  cases action.run engine with
  | none => rfl
  | some ended => obtain ⟨cause | a, left⟩ := ended <;> rfl

theorem run_reply_eq_some {engine left : Engine} {f : α → β} {action : Action α}
    {answer : Except ActionError β}
    (ran : (do return f (← action) : Action β).run engine = some (answer, left)) :
    ∃ given, action.run engine = some (given, left) ∧ answer = given.map f := by
  rw [run_reply] at ran
  obtain ⟨⟨given, _⟩, made, same⟩ := Option.map_eq_some_iff.1 ran
  cases same
  exact ⟨given, made, rfl⟩

/-! Runs. -/

theorem run_generation (name : String) (degree : Nat) (engine : Engine) :
    (generation name degree).run engine =
      match (expansion name).run engine with
      | none => none
      | some (.error cause, left) => some (.error cause, left)
      | some (.ok e, left) => some ((e.generation degree).mapError .expand, left) := by
  rw [generation, Keeping.run_bind]
  cases (expansion name).run engine with
  | none => rfl
  | some ended => obtain ⟨cause | e, left⟩ := ended <;> rfl

/-- The fee is the last thing that a launch may fail at. -/
theorem run_launch (user : String) (r : Request) (engine : Engine) :
    (launch user r).run engine =
      match (generation r.program r.degree.toNat).run engine with
      | none => none
      | some (.error cause, left) => some (.error cause, left)
      | some (.ok p, left) =>
        let required := p.requiredArchitecture
        let architecture := (r.architecture? <|> left.config.architecture?).getD required
        if required ≤ architecture then
          let (paid, ledger) := left.ledger.charge user architecture.runCost
          some ((paid.mapError fun short => .run (.credits short)).map fun _ => (p, architecture),
            { left with ledger })
        else some (.error (.unsupportedArchitecture architecture required), left) := by
  rw [launch, Keeping.run_bind]
  cases (generation r.program r.degree.toNat).run engine with
  | none => rfl
  | some ended =>
    obtain ⟨cause | p, left⟩ := ended
    · rfl
    · simp only [run_get_bind]
      split
      · rw [Keeping.run_bind, charge, run_onLedger, Metered.run_adapt, Metered.run_pay]
        simp only [Metered.bill, Option.map_some]
        cases (left.ledger.charge user _).1 <;> rfl
      · rfl

theorem run_perform (user : String) (r : RunRequest) (engine : Engine) :
    (perform user r).run engine =
      match (launch user r.toRequest).run engine with
      | none => none
      | some (.error cause, left) => some (.error cause, left)
      | some (.ok (p, architecture), left) =>
        let run := left.runFor user (r.strategy?.getD left.config.strategy)
        ((run.perform p r.inputs).run left.ledger).map fun
          | (.error cause, ledger) => (.error (.run cause), { left with ledger })
          | (.ok outcome, ledger) =>
            let (number, history) := left.history.record user {
              number := 0, mode := .execution, program := p.name, degree := r.degree, architecture
              inputs := r.inputs, outcome }
            (.ok { outcome, degree := r.degree, architecture, number },
              { left with ledger, history }) := by
  rw [perform, Keeping.run_bind]
  cases (launch user r.toRequest).run engine with
  | none => rfl
  | some ended =>
    obtain ⟨cause | ⟨p, architecture⟩, left⟩ := ended
    · rfl
    · dsimp only
      rw [run_get_bind, Keeping.run_bind, run_onLedger]
      cases ((left.runFor user _).perform p r.inputs).run left.ledger with
      | none => rfl
      | some ended =>
        obtain ⟨cause | outcome, ledger⟩ := ended
        · rfl
        · rfl

/-! Sessions. -/

/-- The engine with a session under a key, in the place of an earlier one. -/
def withSession (engine : Engine) (key : SessionId) (s : OpenSession) : Engine :=
  { engine with sessions := (key, s) :: engine.sessions.filter (·.1 != key) }

def withoutSession (engine : Engine) (key : SessionId) : Engine :=
  { engine with sessions := engine.sessions.filter (·.1 != key) }

/-- The session that a user means by a name of its program, with its key. -/
def opened (engine : Engine) (user program : String) :
    Except ActionError (SessionId × OpenSession) :=
  match engine.keyFor user program with
  | none => .error (.programNotFound program)
  | some key =>
    match engine.sessions.lookup key with
    | none => .error (.sessionNotFound user program)
    | some s => .ok (key, s)

theorem user_of_keyFor {engine : Engine} {user program : String} {key : SessionId}
    (leads : engine.keyFor user program = some key) : key.user = user := by
  obtain ⟨_, -, rfl⟩ := Option.map_eq_some_iff.1 leads
  rfl

theorem opened_eq_ok {engine : Engine} {user program : String} {key : SessionId} {s : OpenSession}
    (found : engine.opened user program = .ok (key, s)) :
    engine.keyFor user program = some key ∧ engine.sessions.lookup key = some s ∧
      key.user = user := by
  unfold opened at found
  split at found
  · cases found
  · rename_i own leads
    split at found
    · cases found
    · rename_i t there
      cases found
      exact ⟨leads, there, user_of_keyFor leads⟩

theorem run_sessionKey (user program : String) (engine : Engine) :
    (sessionKey user program).run engine =
      some ((engine.keyFor user program).elim (.error (.programNotFound program)) .ok, engine) := by
  rw [sessionKey, Keeping.run_bind, run_entry, keyFor]
  cases engine.registry.find? program <;> rfl

theorem run_openSession (user program : String) (engine : Engine) :
    (openSession user program).run engine = some (engine.opened user program, engine) := by
  rw [openSession, Keeping.run_bind, run_sessionKey, opened]
  cases engine.keyFor user program with
  | none => rfl
  | some key =>
    simp only [Option.elim_some]
    rw [run_get_bind]
    cases engine.sessions.lookup key <;> rfl

theorem run_openSession_bind (user program : String) (f : SessionId × OpenSession → Action α)
    (engine : Engine) :
    (openSession user program >>= f).run engine =
      match engine.opened user program with
      | .error cause => some (.error cause, engine)
      | .ok given => (f given).run engine := by
  rw [Keeping.run_bind, run_openSession]
  cases engine.opened user program <;> rfl

theorem run_startSession (user : String) (r : Request) (engine : Engine) :
    (startSession user r).run engine =
      match engine.keyFor user r.program with
      | none => some (.error (.programNotFound r.program), engine)
      | some key =>
        match (launch user r).run engine with
        | none => none
        | some (.error cause, left) => some (.error cause, left)
        | some (.ok (p, architecture), left) =>
          let session := Session.start (left.runFor user left.config.strategy) p r.inputs
          let s : OpenSession := {
            session, program := p.name, degree := r.degree, architecture, inputs := r.inputs }
          some (.ok session.atStart, left.withSession key s) := by
  rw [startSession, Keeping.run_bind, run_sessionKey]
  cases engine.keyFor user r.program with
  | none => rfl
  | some key =>
    simp only [Option.elim_some]
    rw [Keeping.run_bind]
    cases (launch user r).run engine with
    | none => rfl
    | some ended => obtain ⟨cause | ⟨p, architecture⟩, left⟩ := ended <;> rfl

theorem run_forward (user program : String) (engine : Engine) :
    (forward user program).run engine =
      match engine.opened user program with
      | .error cause => some (.error cause, engine)
      | .ok (key, s) => (s.session.forward.run engine.ledger).map fun
        | (.error cause, ledger) => (.error (.run cause), { engine with ledger })
        | (.ok session, ledger) =>
          (.ok session.current, { engine with ledger }.withSession key { s with session }) := by
  rw [forward, run_openSession_bind]
  cases engine.opened user program with
  | error cause => rfl
  | ok given =>
    simp only [Keeping.run_bind, run_onLedger]
    cases given.2.session.forward.run engine.ledger with
    | none => rfl
    | some ended => obtain ⟨cause | session, ledger⟩ := ended <;> rfl

theorem run_back (user program : String) (engine : Engine) :
    (back user program).run engine =
      match engine.opened user program with
      | .error cause => some (.error cause, engine)
      | .ok (key, s) =>
        let (session, ledger) := s.session.back engine.ledger
        some (.ok session.current, { engine with ledger }.withSession key { s with session }) := by
  rw [back, run_openSession_bind]
  cases engine.opened user program <;> rfl

theorem run_resume (user program : String) (breakpoints : List Nat) (engine : Engine) :
    (resume user program breakpoints).run engine =
      match engine.opened user program with
      | .error cause => some (.error cause, engine)
      | .ok (key, s) =>
        ({ s.session with signal := engine.signalFor key }.resume breakpoints engine.ledger).map
          fun (((session : Session), failure?), ledger) =>
            ((session.answer failure?).mapError .run,
              { engine with ledger }.withSession key { s with session }) := by
  rw [resume, run_openSession_bind]
  cases engine.opened user program with
  | error cause => rfl
  | ok given =>
    obtain ⟨key, s⟩ := given
    dsimp only
    rw [run_get_bind, Keeping.run_bind, run_onLedger, Keeping.run_liftM]
    generalize resumed : StateT.run (Session.resume _ breakpoints) engine.ledger = ended
    change _ = Option.map _ (StateT.run (Session.resume _ breakpoints) engine.ledger)
    rw [resumed]
    cases ended with
    | none => rfl
    | some ended =>
      obtain ⟨⟨session, failure?⟩, ledger⟩ := ended
      cases failure? <;> rfl

theorem run_sessionState (user program : String) (engine : Engine) :
    (sessionState user program).run engine =
      some ((engine.opened user program).map fun given => given.2.session.state, engine) := by
  rw [sessionState, run_openSession_bind]
  cases engine.opened user program <;> rfl

theorem run_cancel (user program : String) (engine : Engine) :
    (cancel user program).run engine =
      some ((engine.opened user program).map fun _ => (), engine) := by
  rw [cancel, run_openSession_bind]
  cases engine.opened user program <;> rfl

theorem run_stopSession (user program : String) (engine : Engine) :
    (stopSession user program).run engine =
      match engine.opened user program with
      | .error cause => some (.error cause, engine)
      | .ok (key, s) =>
        let last := s.session.last
        some (.ok last, { engine.withoutSession key with
          history := (engine.history.record user {
            number := 0, mode := .debug, program := s.program, degree := s.degree
            architecture := s.architecture, inputs := s.inputs
            outcome := ⟨last.result, last.cycles, last.values⟩ }).2 }) := by
  rw [stopSession, run_openSession_bind]
  cases engine.opened user program <;> rfl

end Engine

end SLanguage
