import SLanguage.Engine.Sessions
import SLanguage.Proofs.Engine.Actions
import SLanguage.Proofs.Engine.Failures
import SLanguage.Proofs.Registry

/-! What an engine keeps, whatever is registered, run and debugged on it. Its programs are ready,
those of the sessions among them. So a user learns of nothing that is missing in a program: a run
or a session of a program that is registered fails for the reasons that are meant for it. -/

namespace SLanguage

open Expansion (Ready)

/-- The program of a session is ready, and the registry has all functions that the session has
calls answered by. -/
structure Registry.Serves (r : Registry) (s : Session) : Prop where
  ready : Ready s.evaluator.functions s.program
  grown : s.evaluator.functions.Extends r.functions

theorem Registry.Serves.sameCode {r : Registry} {s t : Session} (serves : r.Serves s)
    (same : s.SameCode t) : r.Serves t where
  ready := same.ready serves.ready
  grown := by
    rw [same.1]
    exact serves.grown

theorem Registry.functions_after_degrees (r : Registry) (name : String) :
    (r.after (.degrees name)).functions = r.functions := by
  rw [after]
  split
  · rfl
  · split
    · rfl
    · rfl

/-- Expanding a program of the registry ends, and only names may be wanting. -/
theorem Registry.Sound.expands {r : Registry} (sound : r.Sound) {c : Cached}
    (mem : c ∈ r.mains.items) :
    (∃ cause, (c.expand r.functions).run = some (.error (.names cause))) ∨
      ∃ e c', (c.expand r.functions).run = some (.ok (e, c')) ∧
        (Expansion.ofProgram r.functions c.program).run = some (.ok e) := by
  have same := congrArg ExceptT.run (sound.expand_eq mem)
  rw [ExceptT.run_map] at same
  obtain ⟨cause, failed⟩ | ⟨e, expanded, -⟩ := (sound.ready c mem).expands
  · rw [failed] at same
    obtain ⟨cause' | made, ran, given⟩ := Option.map_eq_some_iff.1 same
    · cases given
      exact .inl ⟨cause, ran⟩
    · cases given
  · rw [expanded] at same
    obtain ⟨cause' | ⟨e', c'⟩, ran, given⟩ := Option.map_eq_some_iff.1 same
    · cases given
    · cases given
      exact .inr ⟨e', c', ran, expanded⟩

namespace Engine

structure Sound (engine : Engine) : Prop where
  registry : engine.registry.Sound
  sessions : ∀ entry ∈ engine.sessions, engine.registry.Serves entry.2.session

/-- Why a run of a program, or a session on it, is refused. -/
inductive Refuses (engine : Engine) (program : String) : ActionError → Prop where
  | missing (unknown : engine.registry.find? program = none) :
      Refuses engine program (.programNotFound program)
  | degree (requested top : Nat) : Refuses engine program (.expand (.degreeOutOfRange requested top))
  | names (cause : OutOfNames) : Refuses engine program (.expand (.names cause))
  | architecture (given required : Architecture) :
      Refuses engine program (.unsupportedArchitecture given required)
  | run {cause : RunError} (expected : cause.Expected) : Refuses engine program (.run cause)

/-- Why a move of a session on a program is refused. -/
inductive RefusesMove (engine : Engine) (user program : String) : ActionError → Prop where
  | missing (unknown : engine.registry.find? program = none) :
      RefusesMove engine user program (.programNotFound program)
  | unopened {key : SessionId} (leads : engine.keyFor user program = some key)
      (absent : engine.sessions.lookup key = none) :
      RefusesMove engine user program (.sessionNotFound user program)
  | run {cause : RunError} (expected : cause.Expected) :
      RefusesMove engine user program (.run cause)

/-- The action leaves a sound engine, with such a value or for such a reason, if it ends. -/
def Keeps {α : Type} (engine : Engine) (action : Action α) (value : α → Engine → Prop)
    (reason : ActionError → Prop) : Prop :=
  Keeping.Ensures action engine (fun a left => left.Sound ∧ value a left)
    fun cause left => left.Sound ∧ reason cause

variable {engine : Engine} {α β : Type} {reason : ActionError → Prop}

namespace Keeps

theorem bind {action : Action α} {next : α → Action β} {value : α → Engine → Prop}
    {value' : β → Engine → Prop} (first : Keeps engine action value reason)
    (rest : ∀ a left, left.Sound → value a left → Keeps left (next a) value' reason) :
    Keeps engine (action >>= next) value' reason :=
  Keeping.Ensures.bind first fun a left kept => rest a left kept.1 kept.2

theorem read {next : Engine → Action α} {value : α → Engine → Prop}
    (rest : Keeps engine (next engine) value reason) :
    Keeps engine (getThe Engine >>= next) value reason :=
  ⟨rest.ok, rest.error⟩

theorem write {next : Unit → Action α} {value : α → Engine → Prop} {engine' : Engine}
    (rest : Keeps engine' (next ()) value reason) :
    Keeps engine (set engine' >>= next) value reason :=
  ⟨rest.ok, rest.error⟩

theorem of_pure {value : α → Engine → Prop} {a : α} (sound : engine.Sound)
    (holds : value a engine) : Keeps engine (pure a) value reason :=
  Keeping.Ensures.of_pure ⟨sound, holds⟩

theorem of_throw {value : α → Engine → Prop} {cause : ActionError} (sound : engine.Sound)
    (holds : reason cause) : Keeps engine (throw cause) value reason :=
  Keeping.Ensures.of_throw ⟨sound, holds⟩

theorem mono {action : Action α} {value value' : α → Engine → Prop}
    (keeps : Keeps engine action value reason) (more : ∀ a left, value a left → value' a left) :
    Keeps engine action value' reason :=
  Keeping.Ensures.mono keeps (fun a left kept => ⟨kept.1, more a left kept.2⟩) fun _ _ kept => kept

end Keeps

/-! The parts of actions. -/

namespace Sound

variable (sound : engine.Sound)

include sound

theorem withRegistry {r : Registry} (next : r.Sound) (follows : engine.registry.Follows r) :
    Sound { engine with registry := r } where
  registry := next
  sessions entry mem :=
    ⟨(sound.sessions entry mem).ready, (sound.sessions entry mem).grown.trans follows.functions⟩

theorem withLedger (ledger : Ledger) : Sound { engine with ledger } :=
  ⟨sound.registry, sound.sessions⟩

theorem register {add : Registry → Except RegistrationError (Program × Registry)}
    (entered : ∀ p r, add engine.registry = .ok (p, r) →
      r.Sound ∧ engine.registry.Follows r) :
    Keeps engine (Engine.register add) (fun _ _ => True) fun _ => True := by
  obtain ⟨next, follows⟩ := Registry.sound_settle sound.registry entered
  have left := sound.withRegistry next follows
  exact .of_run (run_register add engine) (fun _ _ => ⟨left, trivial⟩) fun _ _ => ⟨left, trivial⟩

theorem entry {name : String}
    (missing : engine.registry.find? name = none → reason (.programNotFound name)) :
    Keeps engine (Engine.entry name)
      (fun c left => engine = left ∧ engine.registry.find? name = some c) reason := by
  have ran := run_entry name engine
  cases found : engine.registry.find? name with
  | none =>
    rw [found] at ran
    refine .of_run ran (fun c given => nomatch given) fun cause given => ?_
    cases given
    exact ⟨sound, missing found⟩
  | some c =>
    rw [found] at ran
    refine .of_run ran (fun c' given => ?_) fun cause given => nomatch given
    cases given
    exact ⟨sound, rfl, rfl⟩

theorem expansion (name : String) :
    Keeps engine (Engine.expansion name)
      (fun e left => ∀ d p, e.generation d = .ok p → Ready left.registry.functions p)
      (engine.Refuses name) := by
  have ran := run_expansion name engine
  cases found : engine.registry.find? name with
  | none =>
    rw [found] at ran
    refine .of_run ran (fun e given => nomatch given) fun cause given => ?_
    cases given
    exact ⟨sound, .missing found⟩
  | some c =>
    have mem : c ∈ engine.registry.mains.items := Catalog.mem_items_of_findKey? found
    have ready := sound.registry.ready c mem
    obtain ⟨next, follows⟩ := sound.registry.after (.degrees name)
    have left := sound.withRegistry next follows
    rw [found] at ran
    obtain ⟨cause, failed⟩ | ⟨e, c', expanded, made⟩ := sound.registry.expands mem
    · simp only [failed, Option.map_some] at ran
      refine .of_run ran (fun e given => nomatch given) fun cause given => ?_
      cases given
      exact ⟨left, .names cause⟩
    · simp only [expanded, Option.map_some] at ran
      refine .of_run ran (fun e' given => ?_) fun cause given => nomatch given
      cases given
      refine ⟨left, fun d p at_d => ?_⟩
      change Ready (engine.registry.after (.degrees name)).functions p
      rw [Registry.functions_after_degrees]
      exact ready.of_generation made at_d

theorem ofExcept {ε : Type} {wrap : ε → ActionError} {given : Except ε α}
    (error : ∀ cause, given = .error cause → reason (wrap cause)) :
    Keeps engine (Engine.ofAttempt wrap (.ofExcept given))
      (fun a left => engine = left ∧ given = .ok a) reason := by
  cases given with
  | ok a =>
    refine .of_run (r := .ok a) rfl (fun a' same => ?_) fun cause same => nomatch same
    cases same
    exact ⟨sound, rfl, rfl⟩
  | error cause =>
    refine .of_run (r := .error (wrap cause)) rfl (fun a same => nomatch same) fun _ same => ?_
    cases same
    exact ⟨sound, error cause rfl⟩

theorem generation (name : String) (degree : Nat) :
    Keeps engine (Engine.generation name degree)
      (fun p left => Ready left.registry.functions p) (engine.Refuses name) := by
  refine (sound.expansion name).bind fun e left sound ready => ?_
  refine (sound.ofExcept fun cause failed => ?_).mono ?_
  · obtain rfl := Expansion.generation_eq_error failed
    exact .degree _ _
  · rintro p _ ⟨rfl, at_d⟩
    exact ready degree p at_d

theorem onLedger {work : Metered RunError α} {value : α → Prop}
    (ensures : ∀ ledger, Keeping.Ensures work ledger (fun a _ => value a) fun e _ => e.Expected)
    (expected : ∀ cause : RunError, cause.Expected → reason (.run cause)) :
    Keeps engine (Engine.onLedger work)
      (fun a left => value a ∧ ∃ ledger, left = { engine with ledger }) reason := by
  have parts (outcome : Except ActionError α) (left : Engine)
      (ran : (Engine.onLedger work).run engine = some (outcome, left)) :
      ∃ given ledger, work.run engine.ledger = some (given, ledger) ∧
        outcome = given.mapError .run ∧ left = { engine with ledger } := by
    obtain ⟨⟨given, ledger⟩, ended, same⟩ := Option.map_eq_some_iff.1 ran
    cases same
    exact ⟨given, ledger, ended, rfl, rfl⟩
  constructor
  · intro a left ran
    obtain ⟨given, ledger, ended, same, rfl⟩ := parts _ _ ran
    cases given with
    | error cause => cases same
    | ok a' =>
      cases same
      exact ⟨sound.withLedger ledger, (ensures _).ok a ledger ended, ledger, rfl⟩
  · intro cause left ran
    obtain ⟨given, ledger, ended, same, rfl⟩ := parts _ _ ran
    cases given with
    | ok a => cases same
    | error cause' =>
      cases same
      exact ⟨sound.withLedger ledger, expected cause' ((ensures _).error _ ledger ended)⟩

theorem launch (user : String) (r : Request) :
    Keeps engine (Engine.launch user r)
      (fun made left => Ready left.registry.functions made.1) (engine.Refuses r.program) := by
  refine (sound.generation _ _).bind fun p left sound ready => .read ?_
  dsimp only
  split
  · refine .bind (sound.onLedger (Metered.FailsWith.pay .credits _ _) ?_) ?_
    · exact fun _ fails => .run fails
    · rintro _ _ sound ⟨-, ledger, rfl⟩
      exact .of_pure sound ready
  · rw [Keeping.throw_bind]
    exact .of_throw sound (.architecture _ _)

theorem record (user : String) (r : PastRun) :
    Keeps engine (Engine.record user r) (fun _ _ => True) reason :=
  .read (.write (.of_pure ⟨sound.registry, sound.sessions⟩ trivial))

theorem perform (user : String) (r : RunRequest) :
    Keeps engine (Engine.perform user r) (fun _ _ => True) (engine.Refuses r.program) := by
  refine (sound.launch user r.toRequest).bind fun made left sound ready => .read ?_
  dsimp only
  refine .bind (sound.onLedger (Run.perform_failsWith ready r.inputs) ?_) ?_
  · exact fun _ fails => .run fails
  · intro _ _ sound _
    exact (sound.record _ _).bind fun _ _ sound _ => .of_pure sound trivial

/-! Sessions. -/

theorem putSession (key : SessionId) {s : OpenSession} (serves : engine.registry.Serves s.session) :
    Keeps engine (Engine.putSession key s) (fun _ _ => True) reason := by
  refine .of_run rfl (fun _ _ => ⟨⟨sound.registry, ?_⟩, trivial⟩) fun _ same => nomatch same
  exact List.forall_mem_cons.2 ⟨serves, fun entry mem =>
    sound.sessions entry (List.mem_of_mem_filter mem)⟩

theorem dropSession (key : SessionId) :
    Keeps engine (Engine.dropSession key) (fun _ _ => True) reason :=
  .of_run rfl (fun _ _ => ⟨⟨sound.registry, fun entry mem =>
    sound.sessions entry (List.mem_of_mem_filter mem)⟩, trivial⟩) fun _ same => nomatch same

theorem sessionKey (user : String) {program : String}
    (missing : engine.registry.find? program = none → reason (.programNotFound program)) :
    Keeps engine (Engine.sessionKey user program)
      (fun key left => engine = left ∧ engine.keyFor user program = some key) reason := by
  refine (sound.entry missing).bind ?_
  rintro c _ sound ⟨rfl, found⟩
  refine .of_pure sound ⟨rfl, ?_⟩
  rw [keyFor, found]
  rfl

theorem openSession (user program : String) :
    Keeps engine (Engine.openSession user program)
      (fun opened left => engine = left ∧ engine.registry.Serves opened.2.session)
      (engine.RefusesMove user program) := by
  refine (sound.sessionKey user .missing).bind ?_
  rintro key _ sound ⟨rfl, leads⟩
  refine .read ?_
  cases found : engine.sessions.lookup key with
  | none => exact .of_throw sound (.unopened leads found)
  | some s =>
    obtain ⟨before, after, parts, -⟩ := List.lookup_eq_some_iff.1 found
    have mem : (key, s) ∈ engine.sessions := by
      rw [parts]
      exact List.mem_append_right _ (List.mem_cons_self ..)
    exact .of_pure sound ⟨rfl, sound.sessions _ mem⟩

theorem startSession (user : String) (r : Request) :
    Keeps engine (Engine.startSession user r) (fun _ _ => True) (engine.Refuses r.program) := by
  refine (sound.sessionKey user .missing).bind ?_
  rintro key _ sound ⟨rfl, -⟩
  refine (sound.launch user r).bind fun made left sound ready => .read ?_
  refine (sound.putSession key ⟨ready, .refl _⟩).bind fun _ _ sound _ => ?_
  exact .of_pure sound trivial

theorem forward (user program : String) :
    Keeps engine (Engine.forward user program) (fun _ _ => True)
      (engine.RefusesMove user program) := by
  refine (sound.openSession user program).bind ?_
  rintro ⟨key, s⟩ _ sound ⟨rfl, serves⟩
  refine .bind (sound.onLedger (Session.forward_ensures serves.ready) ?_) ?_
  · exact fun _ fails => .run fails
  · rintro t _ sound ⟨same, ledger, rfl⟩
    refine (sound.putSession key (serves.sameCode same)).bind fun _ _ sound _ => ?_
    exact .of_pure sound trivial

theorem back (user program : String) :
    Keeps engine (Engine.back user program) (fun _ _ => True)
      (engine.RefusesMove user program) := by
  refine (sound.openSession user program).bind ?_
  rintro ⟨key, s⟩ _ sound ⟨rfl, serves⟩
  refine .read (.write ?_)
  refine .bind ((sound.withLedger _).putSession key ?_) fun _ _ sound _ => .of_pure sound trivial
  exact serves.sameCode (s.session.sameCode_back engine.ledger)

theorem resume (user program : String) (breakpoints : List Nat) :
    Keeps engine (Engine.resume user program breakpoints) (fun _ _ => True)
      (engine.RefusesMove user program) := by
  refine (sound.openSession user program).bind ?_
  rintro ⟨key, s⟩ _ sound ⟨rfl, serves⟩
  refine .read ?_
  dsimp only
  refine .bind (sound.onLedger (Session.resume_ensures (s :=
    { s.session with signal := engine.signalFor key }) serves.ready breakpoints) ?_) ?_
  · exact fun _ fails => .run fails
  · rintro ⟨t, failure?⟩ _ sound ⟨⟨same, fails⟩, ledger, rfl⟩
    refine (sound.putSession key (serves.sameCode (t := t) same)).bind fun _ _ sound _ => ?_
    cases failure? with
    | none => exact .of_pure sound trivial
    | some cause => exact .of_throw sound (.run (fails cause rfl))

theorem stopSession (user program : String) :
    Keeps engine (Engine.stopSession user program) (fun _ _ => True)
      (engine.RefusesMove user program) := by
  refine (sound.openSession user program).bind ?_
  rintro ⟨key, s⟩ _ sound ⟨rfl, -⟩
  refine (sound.dropSession key).bind fun _ _ sound _ => ?_
  exact (sound.record _ _).bind fun _ _ sound _ => .of_pure sound trivial

theorem sessionState (user program : String) :
    Keeps engine (Engine.sessionState user program) (fun _ _ => True)
      (engine.RefusesMove user program) :=
  (sound.openSession user program).bind fun _ _ sound _ => .of_pure sound trivial

theorem cancel (user program : String) :
    Keeps engine (Engine.cancel user program) (fun _ _ => True)
      (engine.RefusesMove user program) :=
  (sound.openSession user program).bind fun _ _ sound _ => .of_pure sound trivial

theorem setAlarm (user program : String) (count : Nat) :
    Keeps engine (Engine.setAlarm user program count) (fun _ _ => True) fun _ => False :=
  .of_run rfl (fun _ _ => ⟨⟨sound.registry, sound.sessions⟩, trivial⟩) fun _ same => nomatch same

end Sound

/-! Events. -/

/-- What happens to an engine: something is registered, the degrees of a program are asked for,
a program is run, a session is opened, moved or closed, or what the users have to spend is
changed from outside. -/
inductive Event where
  | main (d : Definition)
  | function (d : Definition)
  | bundle (b : Bundle)
  | degrees (program : String)
  | run (user : String) (r : RunRequest)
  | start (user : String) (r : Request)
  | forward (user program : String)
  | back (user program : String)
  | resume (user program : String) (breakpoints : List Nat)
  | state (user program : String)
  | cancel (user program : String)
  | alarm (user program : String) (count : Nat)
  | stop (user program : String)
  | credits (ledger : Ledger)

/-- The engine that an action leaves, or the one there was if the action does not end. -/
def left (engine : Engine) (action : Action α) : Engine :=
  ((action.run engine).map Prod.snd).getD engine

def after (engine : Engine) : Event → Engine
  | .main d => engine.left (register (·.enterMain d))
  | .function d => engine.left (register (·.enterFunction d))
  | .bundle b => engine.left (register (·.enterBundle b))
  | .degrees program => engine.left (expansion program)
  | .run user r => engine.left (perform user r)
  | .start user r => engine.left (startSession user r)
  | .forward user program => engine.left (forward user program)
  | .back user program => engine.left (back user program)
  | .resume user program breakpoints => engine.left (resume user program breakpoints)
  | .state user program => engine.left (sessionState user program)
  | .cancel user program => engine.left (cancel user program)
  | .alarm user program count => engine.left (setAlarm user program count)
  | .stop user program => engine.left (stopSession user program)
  | .credits ledger => { engine with ledger }

theorem Keeps.left_sound {action : Action α} {value : α → Engine → Prop}
    (keeps : Keeps engine action value reason) (sound : engine.Sound) :
    (engine.left action).Sound := by
  unfold left
  cases ran : action.run engine with
  | none => exact sound
  | some ended =>
    obtain ⟨cause | a, next⟩ := ended
    · exact (keeps.error cause next ran).1
    · exact (keeps.ok a next ran).1

theorem Sound.after (sound : engine.Sound) (event : Event) : (engine.after event).Sound := by
  cases event with
  | main d =>
    refine Keeps.left_sound (sound.register ?_) sound
    exact fun _ _ entered => sound.registry.enterMain entered
  | function d =>
    refine Keeps.left_sound (sound.register ?_) sound
    exact fun _ _ entered => sound.registry.enterFunction entered
  | bundle b =>
    refine Keeps.left_sound (sound.register ?_) sound
    exact fun _ _ entered => sound.registry.enterBundle entered
  | degrees program => exact (sound.expansion program).left_sound sound
  | run user r => exact (sound.perform user r).left_sound sound
  | start user r => exact (sound.startSession user r).left_sound sound
  | forward user program => exact (sound.forward user program).left_sound sound
  | back user program => exact (sound.back user program).left_sound sound
  | resume user program breakpoints =>
    exact (sound.resume user program breakpoints).left_sound sound
  | state user program => exact (sound.sessionState user program).left_sound sound
  | cancel user program => exact (sound.cancel user program).left_sound sound
  | alarm user program count => exact (sound.setAlarm user program count).left_sound sound
  | stop user program => exact (sound.stopSession user program).left_sound sound
  | credits ledger => exact sound.withLedger ledger

theorem Sound.foldl (sound : engine.Sound) (events : List Event) :
    (events.foldl Engine.after engine).Sound := by
  induction events generalizing engine with
  | nil => exact sound
  | cons event rest ih => exact ih (sound.after event)

theorem sound_start (config : Config) (stepLimit : Nat) (ledger : Ledger) :
    Sound { config, stepLimit, ledger } :=
  ⟨Registry.sound_empty, List.forall_mem_nil _⟩

/-- The functions that are registered while a session is open make no difference to it. -/
theorem step_of_session (sound : engine.Sound) {entry : SessionId × OpenSession}
    (mem : entry ∈ engine.sessions) (m : Machine) :
    let s := entry.2.session
    let current : Evaluator := { s.evaluator with functions := engine.registry.functions }
    m.step (current.answerAt 0) s.program = m.step (s.evaluator.answerAt 0) s.program :=
  (sound.sessions entry mem).ready.step_eq_of_extends (sound.sessions entry mem).grown _ m

/-- Whatever has happened to an engine, a user whom it refuses a run, a session, a step or a
resumption is told that there is no such program or no such session, that the program has no
such degree or no such architecture, or that names, credits or room for calls have run out,
or that the run was stopped. No function or label is ever missing, and nothing that was derived
from a program is ever refused by the assembler. -/
theorem fails_as_expected (config : Config) (stepLimit : Nat) (ledger : Ledger)
    (events : List Event) (user : String) :
    let engine := events.foldl after { config, stepLimit, ledger }
    (∀ r cause engine', (perform user r).run engine = some (.error cause, engine') →
      engine.Refuses r.program cause) ∧
    (∀ r cause engine', (startSession user r).run engine = some (.error cause, engine') →
      engine.Refuses r.program cause) ∧
    (∀ program cause engine', (forward user program).run engine = some (.error cause, engine') →
      engine.RefusesMove user program cause) ∧
    (∀ program breakpoints cause engine',
      (resume user program breakpoints).run engine = some (.error cause, engine') →
        engine.RefusesMove user program cause) := by
  intro engine
  have sound : engine.Sound := (sound_start config stepLimit ledger).foldl events
  refine ⟨?_, ?_, ?_, ?_⟩
  · exact fun r cause engine' ran => ((sound.perform user r).error cause engine' ran).2
  · exact fun r cause engine' ran => ((sound.startSession user r).error cause engine' ran).2
  · exact fun program cause engine' ran => ((sound.forward user program).error cause engine' ran).2
  · exact fun program breakpoints cause engine' ran =>
      ((sound.resume user program breakpoints).error cause engine' ran).2

end Engine

end SLanguage
