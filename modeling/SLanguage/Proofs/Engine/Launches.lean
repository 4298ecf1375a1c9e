import SLanguage.Proofs.Engine.Accounts
import SLanguage.Proofs.Engine.Handling

/-! What an engine is left with after a run, after a session is asked for, and after whatever else
is done with it. The registry only goes on. A run that succeeds is recorded, and a session that is
granted takes its place. What fails leaves sessions and past runs as they were. -/

namespace SLanguage

namespace Expansion

/-- Every degree of a program has its names. -/
theorem Chained.header {functions : Functions} {e : Expansion} (chained : e.Chained functions)
    {d : Nat} {p : Program} (at_d : e.generation? d = some p) : p.header = e.loaded.header :=
  chained.induction (motive := fun p => p.header = e.loaded.header) rfl
    (fun p q nextId same made => by
      obtain ⟨js, after, -, built⟩ := nextGeneration_eq_ok made
      obtain ⟨positions, -, -, rfl⟩ := Program.assemble_eq_ok built
      exact same) at_d

end Expansion

namespace Engine

variable {engine next left last : Engine} {user name : String}

/-! Registries go on. -/

/-- The registry of the second engine is that of the first after some events. -/
def Advances (engine left : Engine) : Prop :=
  ∃ events : List Registry.Event, left.registry = events.foldl Registry.after engine.registry

namespace Advances

theorem of_eq (same : left.registry = engine.registry) : Advances engine left :=
  ⟨[], same⟩

theorem refl (engine : Engine) : Advances engine engine :=
  .of_eq rfl

theorem of_event (event : Registry.Event)
    (same : left.registry = engine.registry.after event) : Advances engine left :=
  ⟨[event], same⟩

theorem trans {last : Engine} (first : Advances engine left) (second : Advances left last) :
    Advances engine last := by
  obtain ⟨events, same⟩ := first
  obtain ⟨events', same'⟩ := second
  exact ⟨events ++ events', by rw [same', same, List.foldl_append]⟩

theorem sound (advances : Advances engine left) (sound : engine.registry.Sound) :
    left.registry.Sound ∧ engine.registry.Follows left.registry := by
  obtain ⟨events, same⟩ := advances
  rw [same]
  exact sound.foldl events

end Advances

theorem advances_of_expansion {answer : Except ActionError Expansion}
    (ran : (expansion name).run engine = some (answer, left)) : Advances engine left := by
  rw [run_expansion] at ran
  split at ran
  · cases ran
    exact .refl engine
  · obtain ⟨_, -, same⟩ := Option.map_eq_some_iff.1 ran
    cases same
    exact .of_event (.degrees name) rfl

/-- A generation leaves what the expansion leaves that it is taken from. -/
theorem exists_expansion_of_generation {degree : Nat} {answer : Except ActionError Program}
    (ran : (generation name degree).run engine = some (answer, left)) :
    ∃ given, (expansion name).run engine = some (given, left) := by
  rw [run_generation] at ran
  split at ran
  · cases ran
  · rename_i expanded
    cases ran
    exact ⟨_, expanded⟩
  · rename_i expanded
    cases ran
    exact ⟨_, expanded⟩

theorem advances_of_generation {degree : Nat} {answer : Except ActionError Program}
    (ran : (generation name degree).run engine = some (answer, left)) : Advances engine left := by
  obtain ⟨_, expanded⟩ := exists_expansion_of_generation ran
  exact advances_of_expansion expanded

/-- How programs are run does not depend on which of them have been expanded. -/
theorem settings_of_generation (user : String) {degree : Nat}
    {answer : Except ActionError Program}
    (ran : (generation name degree).run engine = some (answer, left)) :
    left.config = engine.config ∧
      ∀ strategy, left.runFor user strategy = engine.runFor user strategy := by
  obtain ⟨_, expanded⟩ := exists_expansion_of_generation ran
  rw [run_expansion] at expanded
  split at expanded
  · cases expanded
    exact ⟨rfl, fun _ => rfl⟩
  · obtain ⟨_, -, same⟩ := Option.map_eq_some_iff.1 expanded
    cases same
    refine ⟨rfl, fun strategy => ?_⟩
    rw [runFor, runFor, Registry.functions_after_degrees]

/-- The program of a request is a degree of the main program that the request names. -/
theorem generation_eq_ok (sound : engine.registry.Sound) {degree : Nat} {p : Program}
    (ran : (generation name degree).run engine = some (.ok p, left)) :
    ∃ c e, engine.registry.find? name = some c ∧
      (Expansion.ofProgram engine.registry.functions c.program).run = some (.ok e) ∧
      e.generation? degree = some p ∧ p.header = c.program.header := by
  rw [run_generation, run_expansion_of_sound sound] at ran
  cases found : engine.registry.find? name with
  | none =>
    rw [found] at ran
    cases ran
  | some c =>
    rw [found] at ran
    simp only [Option.map_some] at ran
    cases expanded : (Expansion.ofProgram engine.registry.functions c.program).run with
    | none =>
      rw [expanded] at ran
      cases ran
    | some outcome =>
      rw [expanded] at ran
      cases outcome with
      | error cause => cases ran
      | ok e =>
        obtain ⟨chained, loaded, -⟩ := Expansion.chained_of_ofProgram expanded
        obtain ⟨given, -⟩ := Prod.mk.inj (Option.some.inj ran)
        have at_d : e.generation? degree = some p := by
          rw [Expansion.generation] at given
          split at given
          · rename_i at_d
            cases given
            exact at_d
          · cases given
        exact ⟨c, e, rfl, expanded, at_d, loaded ▸ chained.header at_d⟩

/-! Launches. -/

/-- A launch leaves sessions and past runs. If it fails, nothing has been paid. -/
theorem records_of_launch {r : Request} {answer : Except ActionError (Program × Architecture)}
    (ran : (launch user r).run engine = some (answer, left)) :
    SameRecords engine left ∧ Advances engine left ∧
      ∀ cause, answer = .error cause → left.ledger.balances? = engine.ledger.balances? := by
  rw [run_launch] at ran
  split at ran
  · cases ran
  · rename_i made
    cases ran
    obtain ⟨records, ledger⟩ := ledger_of_generation made
    exact ⟨records, advances_of_generation made, fun _ _ => ledger ▸ rfl⟩
  · rename_i p between made
    obtain ⟨records, ledger⟩ := ledger_of_generation made
    have advances := advances_of_generation made
    simp only at ran
    split at ran
    · generalize (r.architecture? <|> between.config.architecture?).getD _ = architecture at ran
      generalize charged : between.ledger.charge user architecture.runCost = billed at ran
      obtain ⟨paid, after⟩ := billed
      cases ran
      refine ⟨records, advances.trans (.of_eq rfl), fun cause failed => ?_⟩
      cases paid with
      | error short => exact (Ledger.balances?_of_charge_error charged).trans (ledger ▸ rfl)
      | ok => cases failed
    · cases ran
      exact ⟨records, advances, fun _ _ => ledger ▸ rfl⟩

/-- What is launched is a degree of the program that is named. It runs on the architecture that was
asked for, or else on the one of the engine, or else on the least that the program needs. -/
theorem launch_eq_ok (sound : engine.registry.Sound) {r : Request} {p : Program}
    {architecture : Architecture}
    (ran : (launch user r).run engine = some (.ok (p, architecture), left)) :
    left.config = engine.config ∧
      (∀ strategy, left.runFor user strategy = engine.runFor user strategy) ∧
      architecture = (r.architecture? <|> engine.config.architecture?).getD p.requiredArchitecture ∧
      ∃ c e, engine.registry.find? r.program = some c ∧
        (Expansion.ofProgram engine.registry.functions c.program).run = some (.ok e) ∧
        e.generation? r.degree.toNat = some p ∧ p.header = c.program.header := by
  rw [run_launch] at ran
  split at ran
  · cases ran
  · cases ran
  · rename_i q between made
    obtain ⟨config, run⟩ := settings_of_generation user made
    simp only at ran
    split at ran
    · generalize charged : between.ledger.charge user _ = billed at ran
      obtain ⟨paid | paid, after⟩ := billed
      · cases ran
      · cases ran
        exact ⟨config, run, by rw [config], generation_eq_ok sound made⟩
    · cases ran

/-! Runs. -/

/-- A run that succeeds is recorded with what it answers. One that fails is not. -/
theorem records_of_perform (sound : engine.registry.Sound) {r : RunRequest}
    {answer : Except ActionError RunResponse}
    (ran : (perform user r).run engine = some (answer, left)) :
    Advances engine left ∧ left.sessions = engine.sessions ∧
      (∀ cause, answer = .error cause → left.history = engine.history) ∧
      ∀ response, answer = .ok response → ∃ c, engine.registry.find? r.program = some c ∧
        left.history = (engine.history.record user {
          number := 0, mode := .execution, program := c.program.name, degree := response.degree
          architecture := response.architecture, inputs := r.inputs
          outcome := response.outcome }).2 := by
  rw [run_perform] at ran
  split at ran
  · cases ran
  · rename_i launched
    cases ran
    obtain ⟨⟨sessions, history⟩, advances, -⟩ := records_of_launch launched
    exact ⟨advances, sessions, fun _ _ => history, fun _ none => nomatch none⟩
  · rename_i p architecture between launched
    obtain ⟨⟨sessions, history⟩, advances, -⟩ := records_of_launch launched
    obtain ⟨-, -, -, c, e, found, -, -, header⟩ := launch_eq_ok sound launched
    obtain ⟨⟨outcome, ledger⟩, -, same⟩ := Option.map_eq_some_iff.1 ran
    cases outcome with
    | error cause =>
      cases same
      exact ⟨advances.trans (.of_eq rfl), sessions, fun _ _ => history, fun _ none => nomatch none⟩
    | ok outcome =>
      cases same
      refine ⟨advances.trans (.of_eq rfl), sessions, (fun _ none => nomatch none), ?_⟩
      rintro _ ⟨⟩
      refine ⟨c, found, ?_⟩
      have named : p.name = c.program.name := congrArg Header.name header
      rw [← named, ← history]
      rfl

/-! Sessions. -/

/-- The session that a request asks for: before the first step of a degree of the program that is
named. -/
def asked? (engine : Engine) (user : String) (r : Request) : Option OpenSession := do
  let c ← engine.registry.find? r.program
  let e ← (Expansion.ofProgram engine.registry.functions c.program).run.bind Except.toOption
  let p ← e.generation? r.degree.toNat
  return {
    session := .start (engine.runFor user engine.config.strategy) p r.inputs
    program := c.program.name
    degree := r.degree
    architecture := (r.architecture? <|> engine.config.architecture?).getD p.requiredArchitecture
    inputs := r.inputs }

theorem asked?_eq_some {r : Request} {s : OpenSession} (asked : engine.asked? user r = some s) :
    s.degree = r.degree ∧ s.inputs = r.inputs := by
  obtain ⟨c, -, asked⟩ := Option.bind_eq_some_iff.1 asked
  obtain ⟨e, -, asked⟩ := Option.bind_eq_some_iff.1 asked
  obtain ⟨p, -, asked⟩ := Option.bind_eq_some_iff.1 asked
  cases asked
  exact ⟨rfl, rfl⟩

/-- A session that is granted takes the place of the one on the program. One that is refused leaves
it, and the credits. -/
theorem records_of_startSession (sound : engine.registry.Sound) {r : Request}
    {answer : Except ActionError Snapshot}
    (ran : (startSession user r).run engine = some (answer, left)) :
    Advances engine left ∧ left.history = engine.history ∧
      (∀ cause, answer = .error cause →
        left.sessions = engine.sessions ∧ left.ledger.balances? = engine.ledger.balances?) ∧
      ∀ shown, answer = .ok shown → ∃ c s, engine.registry.find? r.program = some c ∧
        engine.asked? user r = some s ∧ s.program = c.program.name ∧
        left.sessions = (engine.withSession ⟨user, Text.fold c.program.name⟩ s).sessions := by
  rw [run_startSession] at ran
  split at ran
  · cases ran
    exact ⟨.refl engine, rfl, fun _ _ => ⟨rfl, rfl⟩, fun _ none => nomatch none⟩
  · rename_i key leads
    split at ran
    · cases ran
    · rename_i launched
      cases ran
      obtain ⟨⟨sessions, history⟩, advances, unpaid⟩ := records_of_launch launched
      exact ⟨advances, history, fun _ _ => ⟨sessions, unpaid _ rfl⟩, fun _ none => nomatch none⟩
    · rename_i p architecture between launched
      cases ran
      obtain ⟨⟨sessions, history⟩, advances, -⟩ := records_of_launch launched
      obtain ⟨config, run, rfl, c, e, found, expanded, at_d, header⟩ :=
        launch_eq_ok sound launched
      refine ⟨advances.trans (.of_eq rfl), history, (fun _ none => nomatch none), fun _ _ => ?_⟩
      rw [keyFor, found] at leads
      cases leads
      have named : p.name = c.program.name := congrArg Header.name header
      let s : OpenSession := {
        session := .start (between.runFor user between.config.strategy) p r.inputs
        program := p.name, degree := r.degree, inputs := r.inputs
        architecture :=
          (r.architecture? <|> engine.config.architecture?).getD p.requiredArchitecture }
      refine ⟨c, s, found, ?_, named, ?_⟩
      · rw [asked?, found]
        simp only [Option.bind_eq_bind, Option.bind_some, expanded, Except.toOption, at_d]
        rw [← named, ← run]
        simp only [s, config]
        rfl
      · rw [withSession, withSession, sessions]

/-! Commands. -/

/-- Whatever is done, the registry goes on. -/
theorem advances_of_act (sound : engine.registry.Sound) {c : Command}
    {answer : Except ActionError Reply} (ran : (act user c).run engine = some (answer, left)) :
    Advances engine left := by
  have handled (h : Handling) {program : String}
      (ran : (act user (h.command program)).run engine = some (answer, left)) :
      Advances engine left := by
    cases found : engine.opened user program with
    | error cause =>
      cases (act_of_unopened h found).symm.trans ran
      exact .refl engine
    | ok given =>
      obtain ⟨_, _, -, handled⟩ := handled_of_act h found ran
      exact .of_eq handled.registry
  cases c with
  | run r =>
    obtain ⟨_, made, rfl⟩ := run_reply_eq_some ran
    exact (records_of_perform sound made).1
  | start r =>
    obtain ⟨_, made, rfl⟩ := run_reply_eq_some ran
    exact (records_of_startSession sound made).1
  | forward program => exact handled .forward ran
  | back program => exact handled .back ran
  | resume program breakpoints => exact handled (.resume breakpoints) ran
  | state program => exact handled .state ran
  | cancel program => exact handled .cancel ran
  | stop program => exact handled .stop ran
  | degrees program =>
    obtain ⟨_, asked, rfl⟩ := run_reply_eq_some ran
    obtain ⟨_, expanded, rfl⟩ := run_reply_eq_some asked
    exact advances_of_expansion expanded
  | runs =>
    cases ran
    exact .refl engine
  | balance =>
    cases ran
    exact .refl engine
  | deposit amount =>
    cases ran
    exact .of_eq rfl

/-- Whatever is done, the registry goes on, and every session stays with who pays for it. -/
theorem Proper.step (proper : engine.Proper) {deed : Deed} {answer : Except ActionError Reply}
    (ran : deed.action.run engine = some (answer, next)) : next.Proper ∧ Advances engine next := by
  have registered (event : Registry.Event)
      (entered : next = { engine with registry := engine.registry.after event }) :
      next.Proper ∧ Advances engine next := by
    subst entered
    exact ⟨⟨(proper.registry.after event).1, proper.payer⟩, .of_event event rfl⟩
  cases deed with
  | of asker asked => exact ⟨(proper.act ran).proper, advances_of_act proper.registry ran⟩
  | main d => exact registered (.main d) (run_registered (·.enterMain d) ran)
  | function d => exact registered (.function d) (run_registered (·.enterFunction d) ran)
  | bundle b => exact registered (.bundle b) (run_registered (·.enterBundle b) ran)
  | alarm asker program count =>
    cases ran
    exact ⟨⟨proper.registry, proper.payer⟩, .of_eq rfl⟩

theorem Proper.play (proper : engine.Proper) {deeds : List Deed}
    {answers : List (Except ActionError Reply)}
    (played : play (deeds.map Deed.action) engine = some (answers, last)) :
    last.Proper ∧ Advances engine last := by
  induction deeds generalizing engine answers with
  | nil =>
    cases played
    exact ⟨proper, .refl _⟩
  | cons deed rest ih =>
    obtain ⟨answer, next, others, ran, later, rfl⟩ := play_cons_eq_some played
    obtain ⟨proper, first⟩ := proper.step ran
    obtain ⟨proper, others⟩ := ih proper later
    exact ⟨proper, first.trans others⟩

end Engine

end SLanguage
