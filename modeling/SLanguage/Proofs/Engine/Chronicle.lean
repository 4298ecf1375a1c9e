import SLanguage.Proofs.Engine.Launches
import SLanguage.Proofs.Registry.Names

/-! Sessions and past runs tell exactly what has succeeded. A chronicle is kept of what a user has
asked for and of how it was answered. The past runs of the user are the ones that it has, and a
session is found under any name of a program if and only if the chronicle has it open. -/

namespace SLanguage

/-- What is known from the answers to a user: the sessions that are open, by the names of their
programs, and the runs that are past. -/
structure Chronicle where
  sessions : String → Option OpenSession := fun _ => none
  runs : List PastRun := []

namespace Chronicle

open Engine (Handling Deed Command Reply)

/-- One more run is past, and has the next number. -/
def add (ch : Chronicle) (r : PastRun) : Chronicle :=
  { ch with runs := ch.runs ++ [{ r with number := UInt64.ofNat (ch.runs.length + 1) }] }

/-- On a program there is such a session now, or none. -/
def put (ch : Chronicle) (program : String) (s? : Option OpenSession) : Chronicle :=
  { ch with sessions := fun other => if other = program then s? else ch.sessions other }

section Notes

variable (engine : Engine) (user : String) (answer : Except ActionError Reply) (ch : Chronicle)

def noteRun (r : RunRequest) : Chronicle :=
  match engine.registry.find? r.program, answer with
  | some c, .ok (.response given) => ch.add {
    number := 0, mode := .execution, program := c.program.name, degree := given.degree
    architecture := given.architecture, inputs := r.inputs, outcome := given.outcome }
  | _, _ => ch

/-- A session that is granted takes the place of an earlier one on the program. -/
def noteStart (r : Request) : Chronicle :=
  match engine.asked? user r, answer with
  | some s, .ok _ => ch.put s.program (some s)
  | _, _ => ch

/-- The session on a program is handled, if there is one. If it is closed, it has been run as far as
was shown. -/
def noteHandling (program : String) (h : Handling) : Chronicle :=
  match engine.registry.find? program with
  | none => ch
  | some c =>
    match ch.sessions c.program.name with
    | none => ch
    | some s =>
      let signal := engine.signalFor ⟨user, Text.fold c.program.name⟩
      match (h.on s.session signal).run engine.ledger, answer with
      | some ((_, some t), _), _ => ch.put c.program.name (some { s with session := t })
      | some ((_, none), _), .ok (.snapshot shown) =>
        (ch.put c.program.name none).add (s.pastRun shown)
      | _, _ => ch

/-- What the answer to a command of the user makes of the chronicle. -/
def note : Command → Chronicle
  | .run r => ch.noteRun engine answer r
  | .start r => ch.noteStart engine user answer r
  | .forward program => ch.noteHandling engine user answer program .forward
  | .back program => ch.noteHandling engine user answer program .back
  | .resume program breakpoints => ch.noteHandling engine user answer program (.resume breakpoints)
  | .state program => ch.noteHandling engine user answer program .state
  | .cancel program => ch.noteHandling engine user answer program .cancel
  | .stop program => ch.noteHandling engine user answer program .stop
  | .degrees _ | .runs | .balance | .deposit _ => ch

/-- Nothing that others do concerns the user. -/
def after : Deed → Chronicle
  | .of asker c => if asker = user then ch.note engine user answer c else ch
  | .main _ | .function _ | .bundle _ | .alarm _ _ _ => ch

end Notes

/-- The chronicle of a user when one thing is done after the other. -/
def along (user : String) : List Deed → Engine → Chronicle → Chronicle
  | [], _, ch => ch
  | deed :: rest, engine, ch =>
    match deed.action.run engine with
    | some (answer, next) => along user rest next (ch.after engine user answer deed)
    | none => ch

/-- How a run has ended, by the answer that ends it. -/
def told? (user : String) : Deed × Except ActionError Reply → Option (RunMode × Outcome)
  | (.of asker (.run _), .ok (.response given)) =>
    if asker = user then some (.execution, given.outcome) else none
  | (.of asker (.stop _), .ok (.snapshot shown)) =>
    if asker = user then some (.debug, ⟨shown.result, shown.cycles, shown.values⟩) else none
  | _ => none

/-- What the open sessions were asked for with, by the names of their programs and going by the
answers alone: what was granted last, unless it has been stopped since. -/
def granted (user : String) (final : Registry) (open? : String → Option (UInt64 × List Int64)) :
    Deed × Except ActionError Reply → String → Option (UInt64 × List Int64)
  | (.of asker (.start r), .ok _), name =>
    if asker = user ∧ (final.find? r.program).map (·.program.name) = some name then
      some (r.degree, r.inputs)
    else open? name
  | (.of asker (.stop program), .ok _), name =>
    if asker = user ∧ (final.find? program).map (·.program.name) = some name then none
    else open? name
  | _, name => open? name

/-- How the past runs have ended. -/
def endings (ch : Chronicle) : List (RunMode × Outcome) :=
  ch.runs.map fun r => (r.mode, r.outcome)

/-- What the open sessions were asked for with. -/
def requests (ch : Chronicle) (program : String) : Option (UInt64 × List Int64) :=
  (ch.sessions program).map fun s => (s.degree, s.inputs)

/-- The second chronicle is the first one with what an answer adds to it. -/
structure Answered (user : String) (final : Registry) (entry : Deed × Except ActionError Reply)
    (ch ch' : Chronicle) : Prop where
  endings : ch'.endings = ch.endings ++ (told? user entry).toList
  requests : ch'.requests = granted user final ch.requests entry

/-- The chronicle is right about the past runs of the user, and about the sessions on all programs
that are registered or will be. -/
structure Tells (ch : Chronicle) (user : String) (final : Registry) (engine : Engine) : Prop where
  runs : engine.history.runs user = ch.runs
  numbers : ∀ (k : Nat) r, ch.runs[k]? = some r → r.number = UInt64.ofNat (k + 1)
  sessions : ∀ c ∈ final.mains.items,
    engine.sessions.lookup ⟨user, Text.fold c.program.name⟩ = ch.sessions c.program.name

variable {ch : Chronicle} {user program : String} {final : Registry} {engine next : Engine}
  {c : Cached} {answer : Except ActionError Reply}

theorem sessions_put (ch : Chronicle) (program other : String) (s? : Option OpenSession) :
    (ch.put program s?).sessions other = if other = program then s? else ch.sessions other :=
  rfl

theorem endings_add (ch : Chronicle) (r : PastRun) :
    (ch.add r).endings = ch.endings ++ [(r.mode, r.outcome)] :=
  List.map_append ..

theorem requests_put (ch : Chronicle) (program : String) (s? : Option OpenSession) :
    (ch.put program s?).requests = fun other =>
      if other = program then s?.map fun s => (s.degree, s.inputs) else ch.requests other := by
  funext other
  rw [requests, sessions_put]
  split <;> rfl

theorem Answered.of_nothing {entry : Deed × Except ActionError Reply}
    (told : told? user entry = none) (same : granted user final ch.requests entry = ch.requests) :
    Answered user final entry ch ch :=
  ⟨by rw [told]; exact (List.append_nil _).symm, same.symm⟩

/-- What others are answered adds nothing. -/
theorem Answered.of_ne {asker : String} (ne : asker ≠ user) (asked : Command) :
    Answered user final (.of asker asked, answer) ch ch := by
  refine .of_nothing ?_ ?_
  · unfold told?
    split <;> simp_all
  · funext name
    unfold granted
    split <;> simp_all

/-- What is registered now will be registered. -/
theorem exists_main_of_find? (follows : engine.registry.Follows final)
    (found : engine.registry.find? program = some c) :
    ∃ c' ∈ final.mains.items, c'.program = c.program := by
  obtain ⟨c', found', same⟩ := follows.mains _ c found
  exact ⟨c', Catalog.mem_items_of_findKey? found', same⟩

theorem named_of_find? (follows : engine.registry.Follows final)
    (found : engine.registry.find? program = some c) :
    (final.find? program).map (·.program.name) = some c.program.name := by
  obtain ⟨c', found', same⟩ := follows.mains _ c found
  have found' : final.find? program = some c' := found'
  rw [found', Option.map_some, same]

namespace Tells

theorem unchanged (tells : ch.Tells user final engine)
    (runs : next.history.runs user = engine.history.runs user)
    (sessions : ∀ folded,
      next.sessions.lookup ⟨user, folded⟩ = engine.sessions.lookup ⟨user, folded⟩) :
    ch.Tells user final next where
  runs := runs.trans tells.runs
  numbers := tells.numbers
  sessions c mem := (sessions _).trans (tells.sessions c mem)

theorem of_eq (tells : ch.Tells user final engine) (history : next.history = engine.history)
    (sessions : next.sessions = engine.sessions) : ch.Tells user final next :=
  tells.unchanged (history ▸ rfl) fun _ => sessions ▸ rfl

theorem add (tells : ch.Tells user final engine) {r : PastRun}
    (history : next.history = (engine.history.record user r).2)
    (sessions : next.sessions = engine.sessions) : (ch.add r).Tells user final next where
  runs := by
    rw [history, History.runs_record, if_pos rfl, History.record, tells.runs]
    rfl
  numbers k own at_k := by
    change (ch.runs ++ [_])[k]? = some own at at_k
    rw [List.getElem?_append] at at_k
    split at at_k
    · exact tells.numbers k own at_k
    · rename_i last
      obtain ⟨inside, rfl⟩ := List.getElem?_eq_some_iff.1 at_k
      rw [List.length_singleton] at inside
      have last : k = ch.runs.length := by omega
      subst last
      simp
  sessions c mem := sessions ▸ tells.sessions c mem

/-- Names of different programs are different also when they are folded, so that a session
on one of them is not touched by what is done with another. -/
theorem put (tells : ch.Tells user final engine) (sound : final.Sound)
    {p : Program} (main : ∃ c ∈ final.mains.items, c.program = p) {s? : Option OpenSession}
    (history : next.history = engine.history)
    (sessions : ∀ other, next.sessions.lookup other =
      if other = ⟨user, Text.fold p.name⟩ then s? else engine.sessions.lookup other) :
    (ch.put p.name s?).Tells user final next where
  runs := history ▸ tells.runs
  numbers := tells.numbers
  sessions c' mem' := by
    obtain ⟨c, mem, rfl⟩ := main
    rw [sessions, sessions_put]
    by_cases same : c'.program.name = c.program.name
    · rw [same, if_pos rfl, if_pos rfl]
    · have apart : (⟨user, Text.fold c'.program.name⟩ : SessionId) ≠
          ⟨user, Text.fold c.program.name⟩ := fun keys => by
        have folded : Text.fold c'.program.name = Text.fold c.program.name :=
          congrArg SessionId.program keys
        exact same (congrArg (·.program.name) (sound.filed.eq_of_key mem' mem
          c'.program.name_mem_keys (folded ▸ c.program.name_mem_keys)))
      rw [if_neg apart, if_neg same, tells.sessions c' mem']

/-- A name that leads to a program leads to the session that is open on it. -/
theorem opened (tells : ch.Tells user final engine) (follows : engine.registry.Follows final)
    (found : engine.registry.find? program = some c) :
    engine.opened user program = match ch.sessions c.program.name with
      | none => .error (.sessionNotFound user program)
      | some s => .ok (⟨user, Text.fold c.program.name⟩, s) := by
  obtain ⟨c', mem, same⟩ := exists_main_of_find? follows found
  have there := tells.sessions c' mem
  rw [same] at there
  have leads : engine.keyFor user program = some ⟨user, Text.fold c.program.name⟩ := by
    rw [Engine.keyFor, found]
    rfl
  cases known : ch.sessions c.program.name with
  | none =>
    rw [known] at there
    simp only [Engine.opened, leads, there]
  | some s =>
    rw [known] at there
    simp only [Engine.opened, leads, there]

/-! One command of the user. -/

theorem run (tells : ch.Tells user final engine) (registry : engine.registry.Sound)
    {r : RunRequest} (ran : (Engine.act user (.run r)).run engine = some (answer, next)) :
    (ch.noteRun engine answer r).Tells user final next ∧
      Answered user final (.of user (.run r), answer) ch (ch.noteRun engine answer r) := by
  obtain ⟨given, made, rfl⟩ := Engine.run_reply_eq_some ran
  obtain ⟨-, sessions, failed, succeeded⟩ := Engine.records_of_perform registry made
  cases given with
  | error cause =>
    have same : ch.noteRun engine (.error cause) r = ch := by
      unfold noteRun
      cases engine.registry.find? r.program <;> rfl
    rw [Except.map, same]
    exact ⟨tells.of_eq (failed cause rfl) sessions, .of_nothing rfl rfl⟩
  | ok response =>
    obtain ⟨c, found, history⟩ := succeeded response rfl
    have told : told? user (.of user (.run r), .ok (.response response)) =
        some (.execution, response.outcome) := if_pos rfl
    simp only [noteRun, found, Except.map]
    refine ⟨tells.add history sessions, ?_, rfl⟩
    rw [endings_add, told]
    rfl

theorem start (tells : ch.Tells user final engine) (registry : engine.registry.Sound)
    (sound : final.Sound) (follows : engine.registry.Follows final) {r : Request}
    (ran : (Engine.act user (.start r)).run engine = some (answer, next)) :
    (ch.noteStart engine user answer r).Tells user final next ∧
      Answered user final (.of user (.start r), answer) ch
        (ch.noteStart engine user answer r) := by
  obtain ⟨given, made, rfl⟩ := Engine.run_reply_eq_some ran
  obtain ⟨-, history, failed, succeeded⟩ := Engine.records_of_startSession registry made
  cases given with
  | error cause =>
    have same : ch.noteStart engine user (.error cause) r = ch := by
      unfold noteStart
      cases engine.asked? user r <;> rfl
    rw [Except.map, same]
    exact ⟨tells.of_eq history (failed cause rfl).1, .of_nothing rfl rfl⟩
  | ok shown =>
    obtain ⟨c, s, found, asked, named, sessions⟩ := succeeded shown rfl
    obtain ⟨degree, inputs⟩ := Engine.asked?_eq_some asked
    simp only [noteStart, asked, Except.map, named]
    refine ⟨?_, (List.append_nil _).symm, ?_⟩
    · refine tells.put sound (exists_main_of_find? follows found) history fun other => ?_
      rw [sessions]
      exact lookup_put ..
    · funext other
      simp only [requests_put, granted, named_of_find? follows found, Option.map_some, degree,
        inputs, true_and, Option.some.injEq, eq_comm]

theorem handling (tells : ch.Tells user final engine) (sound : final.Sound)
    (follows : engine.registry.Follows final) (h : Handling)
    (ran : (Engine.act user (h.command program)).run engine = some (answer, next)) :
    (ch.noteHandling engine user answer program h).Tells user final next ∧
      Answered user final (.of user (h.command program), answer) ch
        (ch.noteHandling engine user answer program h) := by
  have refused {cause : ActionError} (absent : engine.opened user program = .error cause)
      (same : ch.noteHandling engine user (.error cause) program h = ch) :
      (ch.noteHandling engine user answer program h).Tells user final next ∧
        Answered user final (.of user (h.command program), answer) ch
          (ch.noteHandling engine user answer program h) := by
    cases (Engine.act_of_unopened h absent).symm.trans ran
    rw [same]
    exact ⟨tells, .of_nothing (by cases h <;> rfl) (by cases h <;> rfl)⟩
  cases found : engine.registry.find? program with
  | none =>
    have absent : engine.opened user program = .error (.programNotFound program) := by
      rw [Engine.opened, Engine.keyFor, found]
      rfl
    exact refused absent (by rw [noteHandling, found])
  | some c =>
    have opened := tells.opened follows found
    cases there : ch.sessions c.program.name with
    | none =>
      rw [there] at opened
      exact refused opened (by simp only [noteHandling, found, there])
    | some s =>
      rw [there] at opened
      obtain ⟨left?, ledger, given, handled⟩ := Engine.handled_of_act h opened ran
      have main := exists_main_of_find? follows found
      simp only [noteHandling, found, there, given]
      obtain ⟨rfl, rfl, rfl⟩ | ⟨ne, t, rfl⟩ := Engine.Handling.on_eq_some given
      · -- the session is dropped first, and recorded then
        have dropped : (ch.put c.program.name none).Tells user final
            { next with history := engine.history } := tells.put sound main rfl handled.lookup
        have told : told? user (.of user (.stop program), .ok (.snapshot s.session.last)) =
          some (.debug, (s.pastRun s.session.last).outcome) := if_pos rfl
        refine ⟨dropped.add handled.history rfl, ?_, ?_⟩
        · rw [endings_add, Handling.command, told]
          rfl
        · change (ch.put c.program.name none).requests = _
          funext other
          simp only [requests_put, Handling.command, granted, named_of_find? follows found,
            Option.map_none, true_and, Option.some.injEq, eq_comm]
      · have untold : told? user (.of user (h.command program), answer) = none := by
          cases h with
          | stop => exact absurd rfl ne
          | _ => rfl
        have ungranted : granted user final ch.requests (.of user (h.command program), answer) =
            ch.requests := by
          cases h with
          | stop => exact absurd rfl ne
          | _ => rfl
        refine ⟨tells.put sound main handled.history handled.lookup, ?_, ?_⟩
        · rw [untold]
          exact (List.append_nil _).symm
        · rw [ungranted, requests_put]
          funext other
          split
          · rename_i same
            rw [same, requests, there]
            rfl
          · rfl

/-- What the user is answered is noted, and the chronicle still tells sessions and past runs. -/
theorem act (tells : ch.Tells user final engine) (registry : engine.registry.Sound)
    (sound : final.Sound) (follows : engine.registry.Follows final) {asked : Command}
    (ran : (Engine.act user asked).run engine = some (answer, next)) :
    (ch.note engine user answer asked).Tells user final next ∧
      Answered user final (.of user asked, answer) ch (ch.note engine user answer asked) := by
  cases asked with
  | run r => exact tells.run registry ran
  | start r => exact tells.start registry sound follows ran
  | forward program => exact tells.handling sound follows .forward ran
  | back program => exact tells.handling sound follows .back ran
  | resume program breakpoints => exact tells.handling sound follows (.resume breakpoints) ran
  | state program => exact tells.handling sound follows .state ran
  | cancel program => exact tells.handling sound follows .cancel ran
  | stop program => exact tells.handling sound follows .stop ran
  | degrees program =>
    obtain ⟨_, made, rfl⟩ := Engine.run_reply_eq_some ran
    obtain ⟨_, expanded, rfl⟩ := Engine.run_reply_eq_some made
    obtain ⟨⟨sessions, history⟩, -⟩ := Engine.ledger_of_expansion expanded
    exact ⟨tells.of_eq history sessions, .of_nothing rfl rfl⟩
  | runs =>
    cases ran
    exact ⟨tells, .of_nothing rfl rfl⟩
  | balance =>
    cases ran
    exact ⟨tells, .of_nothing rfl rfl⟩
  | deposit amount =>
    cases ran
    exact ⟨tells.of_eq rfl rfl, .of_nothing rfl rfl⟩

/-- One thing that is done, by the user, by another one or with the registry. -/
theorem step (tells : ch.Tells user final engine) (proper : engine.Proper) (sound : final.Sound)
    (follows : engine.registry.Follows final) {deed : Deed}
    (ran : deed.action.run engine = some (answer, next)) :
    (ch.after engine user answer deed).Tells user final next ∧
      Answered user final (deed, answer) ch (ch.after engine user answer deed) := by
  have registered (entered : ∃ registry, next = { engine with registry }) :
      ch.Tells user final next := by
    obtain ⟨registry, rfl⟩ := entered
    exact tells.of_eq rfl rfl
  cases deed with
  | of asker asked =>
    rw [after]
    by_cases own : asker = user
    · subst own
      rw [if_pos rfl]
      exact tells.act proper.registry sound follows ran
    · rw [if_neg own]
      have same := (proper.act ran).others user own
      refine ⟨tells.unchanged (congrArg Engine.View.runs same) fun folded => ?_,
        Answered.of_ne own asked⟩
      have sessions := congrArg (List.lookup ⟨user, folded⟩) (congrArg Engine.View.sessions same)
      rwa [Engine.lookup_own rfl, Engine.lookup_own rfl] at sessions
  | main d =>
    exact ⟨registered ⟨_, Engine.run_registered (·.enterMain d) ran⟩, .of_nothing rfl rfl⟩
  | function d =>
    exact ⟨registered ⟨_, Engine.run_registered (·.enterFunction d) ran⟩, .of_nothing rfl rfl⟩
  | bundle b =>
    exact ⟨registered ⟨_, Engine.run_registered (·.enterBundle b) ran⟩, .of_nothing rfl rfl⟩
  | alarm asker program count =>
    cases ran
    exact ⟨tells.of_eq rfl rfl, .of_nothing rfl rfl⟩

end Tells

/-- The chronicle is right in the end if it was at the start, and has got all that was answered. -/
theorem Tells.along {last : Engine} (tells : ch.Tells user last.registry engine)
    (proper : engine.Proper) {deeds : List Deed} {answers : List (Except ActionError Reply)}
    (played : Engine.play (deeds.map Deed.action) engine = some (answers, last)) :
    (Chronicle.along user deeds engine ch).Tells user last.registry last ∧
      (Chronicle.along user deeds engine ch).endings =
        ch.endings ++ (deeds.zip answers).filterMap (told? user) ∧
      (Chronicle.along user deeds engine ch).requests =
        (deeds.zip answers).foldl (granted user last.registry) ch.requests := by
  induction deeds generalizing engine ch answers with
  | nil =>
    cases played
    exact ⟨tells, (List.append_nil _).symm, rfl⟩
  | cons deed rest ih =>
    obtain ⟨sound, follows⟩ := (proper.play played).2.sound proper.registry
    obtain ⟨answer, next, others, ran, later, rfl⟩ := Engine.play_cons_eq_some played
    obtain ⟨noted, one⟩ := tells.step proper sound follows ran
    obtain ⟨told, endings, requests⟩ := ih noted (proper.step ran).1 later
    rw [Chronicle.along, ran]
    refine ⟨told, ?_, ?_⟩
    · simp only
      rw [endings, one.endings, List.zip_cons_cons, List.append_assoc]
      cases ended : told? user (deed, answer) with
      | none => rw [List.filterMap_cons_none ended]; rfl
      | some ending => rw [List.filterMap_cons_some ended]; rfl
    · simp only
      rw [requests, one.requests, List.zip_cons_cons, List.foldl_cons]

/-- Users register, run and debug programs in whatever order. The past runs of a user are numbered
from 1 on. There is one for every run of the user that succeeded, with its outcome, degree,
architecture and inputs, one for every session that the user stopped, with what was shown last and
with the degree, the architecture and the inputs that it was asked for with, and none for what
failed. By whatever name a user means a registered program, what is done is done with the session
that was granted to the user last for this program, as it has been moved since, unless it was
stopped; then, and where none was granted, no session is found. A session that is refused leaves
all sessions, past runs and credits as they were. -/
theorem sessions_and_runs_faithful (config : Config) (stepLimit : Nat) (ledger : Ledger)
    {deeds : List Deed} {answers : List (Except ActionError Reply)} {last : Engine}
    (played : Engine.play (deeds.map Deed.action) { config, stepLimit, ledger } =
      some (answers, last)) (user : String) :
    let ch := Chronicle.along user deeds { config, stepLimit, ledger } {}
    last.history.runs user = ch.runs ∧
    (∀ (k : Nat) r, ch.runs[k]? = some r → r.number = UInt64.ofNat (k + 1)) ∧
    ch.endings = (deeds.zip answers).filterMap (told? user) ∧
    ch.requests = (deeds.zip answers).foldl (granted user last.registry) (fun _ => none) ∧
    (∀ c ∈ last.registry.mains.items, ∀ text, c.program.IsCalled text → ∀ h : Handling,
      match ch.sessions c.program.name with
      | none =>
        (Engine.act user (h.command text)).run last =
          some (.error (.sessionNotFound user text), last)
      | some s =>
        let signal := last.signalFor ⟨user, Text.fold c.program.name⟩
        ((Engine.act user (h.command text)).run last).map (fun ended =>
          (ended.1, ended.2.ledger)) =
          ((h.on s.session signal).run last.ledger).map fun given => (given.1.1, given.2)) ∧
    ∀ r cause next, (Engine.startSession user r).run last = some (.error cause, next) →
      next.sessions = last.sessions ∧ next.history = last.history ∧
        next.ledger.balances? = last.ledger.balances? := by
  intro ch
  have proper : Engine.Proper { config, stepLimit, ledger } :=
    Engine.proper_of_sound Registry.sound_empty
  obtain ⟨proper', events, registry⟩ := proper.play played
  have sound : last.registry.Sound := proper'.registry
  have each : last.registry.Each fun p => p.header.Writable := by
    rw [registry]
    exact .foldl (fun d role p => Program.header_of_ofDefinition)
      ⟨List.forall_mem_nil _, List.forall_mem_nil _⟩ Registry.sound_empty events
  have start : ({} : Chronicle).Tells user last.registry { config, stepLimit, ledger } :=
    ⟨rfl, fun _ _ none => (by simp at none), fun _ _ => rfl⟩
  obtain ⟨tells, endings, requests⟩ := start.along proper played
  refine ⟨tells.runs, tells.numbers, endings, requests, fun c mem text called h => ?_,
    fun r cause next refused => ?_⟩
  · have found := (each.titled sound).1.found text c |>.2 ⟨mem, called⟩
    have opened := tells.opened (.refl _) found
    cases there : ch.sessions c.program.name with
    | none =>
      rw [there] at opened
      exact Engine.act_of_unopened h opened
    | some s =>
      rw [there] at opened
      exact Engine.answer_of_opened h opened
  · obtain ⟨-, history, failed, -⟩ := Engine.records_of_startSession sound refused
    exact ⟨(failed cause rfl).1, history, (failed cause rfl).2⟩

/-- The first user stops a session after a step, runs the program and starts anew. Nothing comes of
moving a session that is not there. The second user cannot pay for one, and finds none. -/
theorem sessions_and_runs_faithful_bump :
    let deeds : List Deed := [
      .main Engine.bumping, .of "a" (.deposit 30), .of "a" (.forward "M"),
      .of "a" (.start { program := " m " }), .of "a" (.forward "m"), .of "a" (.stop "M"),
      .of "b" (.start { program := "m" }), .of "a" (.run { program := "M", inputs := [7] }),
      .of "a" (.start { program := "m", inputs := [5] })]
    let ch := Chronicle.along "a" deeds (Engine.atStart {} 10) {}
    ∃ answers last, Engine.play (deeds.map Deed.action) (Engine.atStart {} 10) =
        some (answers, last) ∧
      last.history.runs "a" = ch.runs ∧
      ch.endings.map Prod.fst = [.debug, .execution] ∧ ch.requests "M" = some (0, [5]) ∧
      (Engine.act "b" (.forward "m\t")).run last =
        some (.error (.sessionNotFound "b" "m\t"), last) := by
  intro deeds ch
  have ended : (Engine.play (deeds.map Deed.action) (Engine.atStart {} 10)).map (fun e => decide
      (((deeds.zip e.1).filterMap (told? "a")).map Prod.fst = [.debug, .execution] ∧
        (deeds.zip e.1).foldl (granted "a" e.2.registry) (fun _ => none) "M" = some (0, [5]) ∧
        (deeds.zip e.1).foldl (granted "b" e.2.registry) (fun _ => none) "M" = none ∧
        e.2.registry.mains.items.map (·.program.name) = ["M"])) = some true := by
    change (((Deed.main Engine.bumping).action.run (Engine.atStart {} 10)).bind _).map _ = _
    rw [Engine.run_bumping]
    decide +kernel
  obtain ⟨⟨answers, last⟩, played, same⟩ := Option.map_eq_some_iff.1 ended
  obtain ⟨modes, own, others, names⟩ := of_decide_eq_true same
  obtain ⟨runs, -, endings, requests, -, -⟩ := sessions_and_runs_faithful {} 10 .empty played "a"
  obtain ⟨-, -, -, absent, handled, -⟩ := sessions_and_runs_faithful {} 10 .empty played "b"
  refine ⟨answers, last, played, runs, ?_, ?_, ?_⟩
  · exact (congrArg (List.map Prod.fst) endings).trans modes
  · exact (congrFun requests "M").trans own
  · obtain ⟨c, mem, named⟩ := List.mem_map.1 (names ▸ List.mem_singleton.2 rfl : "M" ∈ _)
    have spelled : Text.Spells "m\t" "M" :=
      (Text.spells_iff (by decide +kernel)).2 (by decide +kernel)
    have none := Option.map_eq_none_iff.1 ((congrFun absent "M").trans others)
    have answered := handled c mem "m\t" (.inl (named ▸ spelled)) .forward
    rw [named, none] at answered
    exact answered

end Chronicle

end SLanguage
