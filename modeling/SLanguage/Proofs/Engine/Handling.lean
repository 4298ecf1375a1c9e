import SLanguage.Proofs.Engine.Dues
import SLanguage.Proofs.Engine.Privacy

/-! Handling sessions. An engine does with a session what would be done with it on its own, and
puts what is left of it in its place. Whatever is done, the registry only goes on. -/

namespace SLanguage

/-- Among the entries whose keys are kept, an entry is found if its key is. -/
theorem lookup_filter_key {κ α : Type} [DecidableEq κ] (keep : κ → Bool)
    (entries : List (κ × α)) (key : κ) :
    (entries.filter (keep ·.1)).lookup key = if keep key then entries.lookup key else none := by
  induction entries with
  | nil => simp
  | cons entry rest ih =>
    obtain ⟨own, a⟩ := entry
    rw [List.filter_cons]
    by_cases same : key = own
    · subst same
      cases kept : keep key <;> simp [kept, ih]
    · have other : (key == own) = false := beq_false_of_ne same
      cases keep own <;> simp [ih, other, List.lookup_cons]

/-- An entry that is put in stands in the place of the one under its key. -/
theorem lookup_put {κ α : Type} [DecidableEq κ] (entries : List (κ × α)) (key other : κ) (a : α) :
    ((key, a) :: entries.filter (·.1 != key)).lookup other =
      if other = key then some a else entries.lookup other := by
  rw [List.lookup_cons, lookup_filter_key (· != key)]
  by_cases same : other = key
  · simp [same]
  · have ne : (other == key) = false := beq_false_of_ne same
    simp [same, ne]

/-- The run that a session is recorded as when it is closed and shows where its program has got
to. -/
def OpenSession.pastRun (s : OpenSession) (shown : Snapshot) : PastRun where
  number := 0
  mode := .debug
  program := s.program
  degree := s.degree
  architecture := s.architecture
  inputs := s.inputs
  outcome := ⟨shown.result, shown.cycles, shown.values⟩

namespace Engine

/-- What a user can do with a session that is open. -/
inductive Handling where
  | forward
  | back
  | resume (breakpoints : List Nat)
  | state
  | cancel
  | stop

namespace Handling

/-- The command to do it with the session on a program. -/
def command (program : String) : Handling → Command
  | forward => .forward program
  | back => .back program
  | resume breakpoints => .resume program breakpoints
  | state => .state program
  | cancel => .cancel program
  | stop => .stop program

/-- What a session is made to answer, and what is left of it if it is not closed. The signal counts
for a session that is resumed. -/
def on (s : Session) (signal : Signal) :
    Handling → Billing (Except ActionError Reply × Option Session)
  | forward => fun ledger => (s.forward.run ledger).map fun
    | (.ok t, ledger) => ((.ok (.snapshot t.current), some t), ledger)
    | (.error cause, ledger) => ((.error (.run cause), some s), ledger)
  | back => fun ledger =>
    some ((.ok (.snapshot (s.back ledger).1.current), some (s.back ledger).1), (s.back ledger).2)
  | resume breakpoints => fun ledger => ({ s with signal }.resume breakpoints ledger).map
    fun (((t : Session), failure?), ledger) =>
      ((((t.answer failure?).mapError ActionError.run).map Reply.snapshot, some t), ledger)
  | state => fun ledger => some ((.ok (.state s.state), some s), ledger)
  | cancel => fun ledger => some ((.ok .done, some s), ledger)
  | stop => fun ledger => some ((.ok (.snapshot s.last), none), ledger)

/-- A session is closed by stopping it, and by nothing else. -/
theorem on_eq_some {h : Handling} {s : Session} {signal : Signal} {ledger after : Ledger}
    {answer : Except ActionError Reply} {left? : Option Session}
    (given : (h.on s signal).run ledger = some ((answer, left?), after)) :
    (h = stop ∧ answer = .ok (.snapshot s.last) ∧ left? = none) ∨
      (h ≠ stop ∧ ∃ t, left? = some t) := by
  cases h with
  | forward =>
    obtain ⟨⟨cause | t, _⟩, -, same⟩ := Option.map_eq_some_iff.1 given
    · cases same
      exact .inr ⟨nofun, _, rfl⟩
    · cases same
      exact .inr ⟨nofun, _, rfl⟩
  | resume breakpoints =>
    obtain ⟨_, -, same⟩ := Option.map_eq_some_iff.1 given
    cases same
    exact .inr ⟨nofun, _, rfl⟩
  | back | state | cancel =>
    cases given
    exact .inr ⟨nofun, _, rfl⟩
  | stop =>
    cases given
    exact .inl ⟨rfl, rfl, rfl⟩

end Handling

/-- The engine after something was done with the session under a key. Only that session has
changed, and where it was closed it is recorded. -/
structure Handled (engine : Engine) (key : SessionId) (s : OpenSession) (left? : Option Session)
    (ledger : Ledger) (next : Engine) : Prop where
  ledger : next.ledger = ledger
  registry : next.registry = engine.registry
  lookup : ∀ other, next.sessions.lookup other =
    if other = key then left?.map fun session => { s with session }
    else engine.sessions.lookup other
  history : next.history = match left? with
    | some _ => engine.history
    | none => (engine.history.record key.user (s.pastRun s.session.last)).2

variable {engine next left : Engine} {user program : String} {key : SessionId} {s : OpenSession}

namespace Handled

variable {ledger : Ledger}

theorem still (found : engine.sessions.lookup key = some s) :
    Handled engine key s (some s.session) ledger { engine with ledger } where
  ledger := rfl
  registry := rfl
  lookup other := by
    split
    · rename_i same
      rw [same, found]
      rfl
    · rfl
  history := rfl

theorem moved (t : Session) :
    Handled engine key s (some t) ledger
      ({ engine with ledger }.withSession key { s with session := t }) where
  ledger := rfl
  registry := rfl
  lookup _ := lookup_put ..
  history := rfl

end Handled

/-- Where there is no session nothing is done, for the reason that the session is not found. -/
theorem act_of_unopened {cause : ActionError} (h : Handling)
    (absent : engine.opened user program = .error cause) :
    (act user (h.command program)).run engine = some (.error cause, engine) := by
  cases h with
  | forward =>
    refine (run_reply ..).trans ?_
    rw [run_forward, absent]
    rfl
  | back =>
    refine (run_reply ..).trans ?_
    rw [run_back, absent]
    rfl
  | resume breakpoints =>
    refine (run_reply ..).trans ?_
    rw [run_resume, absent]
    rfl
  | state =>
    refine (run_reply ..).trans ?_
    rw [run_sessionState, absent]
    rfl
  | cancel =>
    refine (run_reply ..).trans ?_
    rw [run_cancel, absent]
    rfl
  | stop =>
    refine (run_reply ..).trans ?_
    rw [run_stopSession, absent]
    rfl

/-- An open session is handled on the ledger of the engine, and what it answers is answered. -/
theorem act_of_opened (h : Handling) (found : engine.opened user program = .ok (key, s)) :
    Option.Rel (fun ended given => ended.1 = given.1.1 ∧
        Handled engine key s given.1.2 given.2 ended.2)
      ((act user (h.command program)).run engine)
      ((h.on s.session (engine.signalFor key)).run engine.ledger) := by
  obtain ⟨-, there, rfl⟩ := opened_eq_ok found
  cases h with
  | forward =>
    rw [Handling.command, act, run_reply, run_forward, found]
    change Option.Rel _ (((s.session.forward.run engine.ledger).map _).map _)
      ((s.session.forward.run engine.ledger).map _)
    cases s.session.forward.run engine.ledger with
    | none => exact .none
    | some ended =>
      obtain ⟨cause | t, ledger⟩ := ended
      · exact .some ⟨rfl, .still there⟩
      · exact .some ⟨rfl, .moved t⟩
  | back =>
    rw [Handling.command, act, run_reply, run_back, found]
    exact .some ⟨rfl, .moved _⟩
  | resume breakpoints =>
    rw [Handling.command, act, run_reply, run_resume, found]
    change Option.Rel _ (((Session.resume _ breakpoints engine.ledger).map _).map _)
      ((Session.resume _ breakpoints engine.ledger).map _)
    cases ({ s.session with signal := engine.signalFor key } : Session).resume breakpoints
        engine.ledger with
    | none => exact .none
    | some ended =>
      obtain ⟨⟨t, _ | cause⟩, ledger⟩ := ended
      · exact .some ⟨rfl, .moved t⟩
      · exact .some ⟨rfl, .moved t⟩
  | state =>
    rw [Handling.command, act, run_reply, run_sessionState, found]
    exact .some ⟨rfl, .still there⟩
  | cancel =>
    rw [Handling.command, act, run_reply, run_cancel, found]
    exact .some ⟨rfl, .still there⟩
  | stop =>
    rw [Handling.command, act, run_reply, run_stopSession, found]
    refine .some ⟨rfl, rfl, rfl, fun other => ?_, rfl⟩
    exact (lookup_filter_key (· != key) engine.sessions other).trans (by simp [ite_not])

theorem answer_of_opened (h : Handling) (found : engine.opened user program = .ok (key, s)) :
    ((act user (h.command program)).run engine).map (fun ended => (ended.1, ended.2.ledger)) =
      ((h.on s.session (engine.signalFor key)).run engine.ledger).map fun given =>
        (given.1.1, given.2) := by
  have rel := act_of_opened h found
  generalize (act user (h.command program)).run engine = ran at rel ⊢
  generalize (h.on s.session (engine.signalFor key)).run engine.ledger = made at rel ⊢
  cases rel with
  | none => rfl
  | some handled => exact congrArg some (Prod.ext handled.1 handled.2.ledger)

theorem handled_of_act (h : Handling) (found : engine.opened user program = .ok (key, s))
    {answer : Except ActionError Reply}
    (ran : (act user (h.command program)).run engine = some (answer, next)) :
    ∃ left? ledger, (h.on s.session (engine.signalFor key)).run engine.ledger =
      some ((answer, left?), ledger) ∧ Handled engine key s left? ledger next := by
  have rel := act_of_opened h found
  rw [ran] at rel
  generalize given : (h.on s.session (engine.signalFor key)).run engine.ledger = made at rel
  cases rel with
  | @some _ ended handled =>
    obtain ⟨⟨answer', left?⟩, ledger⟩ := ended
    obtain ⟨rfl, handled⟩ := handled
    exact ⟨left?, ledger, rfl, handled⟩

end Engine

end SLanguage
