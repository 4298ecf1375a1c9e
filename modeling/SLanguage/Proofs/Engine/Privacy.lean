import SLanguage.Proofs.Engine.Views

/-! Users of one engine do not interfere. What a user asks for is answered from the user's own
view, and changes no other view. So what a user is answered, in whatever order the requests of
several users come, is what the user would be answered alone. -/

namespace SLanguage

namespace Engine

variable {α : Type} {engine left : Engine} {user : String}

/-! Others are left alone. -/

namespace Proper

variable (proper : engine.Proper)

include proper

theorem opened {program : String} {key : SessionId} {s : OpenSession}
    (found : engine.opened user program = .ok (key, s)) :
    key.user = user ∧ s.session.payer? = some user := by
  obtain ⟨-, there, rfl⟩ := opened_eq_ok found
  exact ⟨rfl, proper.payer (key, s) (mem_of_lookup there)⟩

theorem expansion {name : String} {answer : Except ActionError Expansion}
    (ran : (Engine.expansion name).run engine = some (answer, left)) :
    Beside user engine left := by
  rw [run_expansion] at ran
  split at ran
  · cases ran
    exact .refl proper
  · obtain ⟨_, -, same⟩ := Option.map_eq_some_iff.1 ran
    cases same
    exact proper.degrees name

theorem generation {name : String} {degree : Nat} {answer : Except ActionError Program}
    (ran : (Engine.generation name degree).run engine = some (answer, left)) :
    Beside user engine left := by
  rw [run_generation] at ran
  split at ran
  · cases ran
  · rename_i expanded
    cases ran
    exact proper.expansion expanded
  · rename_i expanded
    cases ran
    exact proper.expansion expanded

theorem launch {r : Request} {answer : Except ActionError (Program × Architecture)}
    (ran : (Engine.launch user r).run engine = some (answer, left)) :
    Beside user engine left := by
  rw [run_launch] at ran
  split at ran
  · cases ran
  · rename_i made
    cases ran
    exact proper.generation made
  · rename_i p between made
    have first : Beside user engine between := proper.generation made
    simp only at ran
    split at ran
    · cases ran
      exact first.trans (first.proper.ledger fun other ne => Ledger.balance?_charge_of_ne _ _ ne)
    · cases ran
      exact first

theorem perform {r : RunRequest} {answer : Except ActionError RunResponse}
    (ran : (Engine.perform user r).run engine = some (answer, left)) :
    Beside user engine left := by
  rw [run_perform] at ran
  split at ran
  · cases ran
  · rename_i launched
    cases ran
    exact proper.launch launched
  · rename_i p architecture between launched
    have first : Beside user engine between := proper.launch launched
    obtain ⟨⟨outcome, ledger⟩, made, same⟩ := Option.map_eq_some_iff.1 ran
    have charged : Beside user between { between with ledger } :=
      first.proper.ledger fun other ne =>
        Run.perform_closed (Metered.closed_of_ne ne _) rfl rfl rfl made
    cases outcome with
    | error cause =>
      cases same
      exact first.trans charged
    | ok outcome =>
      cases same
      exact (first.trans charged).trans (charged.proper.recorded _)

theorem startSession {r : Request} {answer : Except ActionError Snapshot}
    (ran : (Engine.startSession user r).run engine = some (answer, left)) :
    Beside user engine left := by
  rw [run_startSession] at ran
  split at ran
  · cases ran
    exact .refl proper
  · rename_i key leads
    split at ran
    · cases ran
    · rename_i launched
      cases ran
      exact proper.launch launched
    · rename_i p architecture between launched
      have first : Beside user engine between := proper.launch launched
      cases ran
      exact first.trans (first.proper.withSession (user_of_keyFor leads) rfl)

theorem forward {program : String} {answer : Except ActionError Snapshot}
    (ran : (Engine.forward user program).run engine = some (answer, left)) :
    Beside user engine left := by
  rw [run_forward] at ran
  split at ran
  · cases ran
    exact .refl proper
  · rename_i key s found
    obtain ⟨own, payer⟩ := proper.opened found
    obtain ⟨⟨outcome, ledger⟩, moved, same⟩ := Option.map_eq_some_iff.1 ran
    have kept (other : String) (ne : user ≠ other) := Session.kept_of_closed
      (Metered.closed_of_ne ne (engine.ledger.balance? other))
    cases outcome with
    | error cause =>
      cases same
      exact proper.ledger fun other ne => ((kept other ne).failed ⟨payer, rfl⟩ moved).2
    | ok t =>
      cases same
      have moved := Session.forward_of_run moved
      have charged : Beside user engine { engine with ledger } :=
        proper.ledger fun other ne => ((kept other ne).forward ⟨payer, rfl⟩ moved).2
      exact charged.trans (charged.proper.withSession own (moved.payer?.trans payer))

theorem back {program : String} {answer : Except ActionError Snapshot}
    (ran : (Engine.back user program).run engine = some (answer, left)) :
    Beside user engine left := by
  rw [run_back] at ran
  split at ran
  · cases ran
    exact .refl proper
  · rename_i key s found
    obtain ⟨own, payer⟩ := proper.opened found
    cases ran
    have refunded : Beside user engine { engine with ledger := (s.session.back engine.ledger).2 } :=
      proper.ledger fun other ne => Session.back_closed (Metered.closed_of_ne ne _) payer rfl
    have payer' := (s.session.payer?_back engine.ledger).trans payer
    exact refunded.trans (refunded.proper.withSession own payer')

theorem resume {program : String} {breakpoints : List Nat}
    {answer : Except ActionError Snapshot}
    (ran : (Engine.resume user program breakpoints).run engine = some (answer, left)) :
    Beside user engine left := by
  rw [run_resume] at ran
  split at ran
  · cases ran
    exact .refl proper
  · rename_i key s found
    obtain ⟨own, payer⟩ := proper.opened found
    obtain ⟨⟨⟨t, failure?⟩, ledger⟩, moved, same⟩ := Option.map_eq_some_iff.1 ran
    cases same
    have kept {P : Ledger → Prop} (closed : Metered.Closed (some user) P)
        (holds : P engine.ledger) : t.payer? = some user ∧ P ledger :=
      have kept := Session.kept_of_closed closed
      kept.resume (kept.marks s.session.breakpoints (engine.signalFor key) ⟨payer, holds⟩) moved
    have charged : Beside user engine { engine with ledger } :=
      proper.ledger fun other ne => (kept (Metered.closed_of_ne ne _) rfl).2
    have payer' := (kept (P := fun _ => True) ⟨fun _ _ => id, fun _ _ => id⟩ trivial).1
    exact charged.trans (charged.proper.withSession own payer')

theorem stopSession {program : String} {answer : Except ActionError Snapshot}
    (ran : (Engine.stopSession user program).run engine = some (answer, left)) :
    Beside user engine left := by
  rw [run_stopSession] at ran
  split at ran
  · cases ran
    exact .refl proper
  · rename_i key s found
    obtain ⟨own, -⟩ := proper.opened found
    cases ran
    have closed : Beside user engine (engine.withoutSession key) := proper.withoutSession own
    exact closed.trans (closed.proper.recorded _)

theorem act {c : Command} {answer : Except ActionError Reply}
    (ran : (act user c).run engine = some (answer, left)) : Beside user engine left := by
  cases c with
  | run r =>
    obtain ⟨_, made, rfl⟩ := run_reply_eq_some ran
    exact proper.perform made
  | start r =>
    obtain ⟨_, made, rfl⟩ := run_reply_eq_some ran
    exact proper.startSession made
  | forward program =>
    obtain ⟨_, made, rfl⟩ := run_reply_eq_some ran
    exact proper.forward made
  | back program =>
    obtain ⟨_, made, rfl⟩ := run_reply_eq_some ran
    exact proper.back made
  | resume program breakpoints =>
    obtain ⟨_, made, rfl⟩ := run_reply_eq_some ran
    exact proper.resume made
  | state program =>
    obtain ⟨_, made, rfl⟩ := run_reply_eq_some ran
    rw [run_sessionState] at made
    cases made
    exact .refl proper
  | cancel program =>
    obtain ⟨_, made, rfl⟩ := run_reply_eq_some ran
    rw [run_cancel] at made
    cases made
    exact .refl proper
  | stop program =>
    obtain ⟨_, made, rfl⟩ := run_reply_eq_some ran
    exact proper.stopSession made
  | degrees program =>
    obtain ⟨_, asked, rfl⟩ := run_reply_eq_some ran
    obtain ⟨_, expanded, rfl⟩ := run_reply_eq_some asked
    exact proper.expansion expanded
  | runs =>
    cases ran
    exact .refl proper
  | balance =>
    cases ran
    exact .refl proper
  | deposit amount =>
    cases ran
    exact proper.ledger fun other ne => Ledger.balance?_deposit_of_ne _ amount ne

end Proper

/-! Own requests are answered from the own view. -/

/-- Both give the same answer and leave engines that look the same to the user, or neither ends. -/
def Matched (user : String) (first second : Option (Except ActionError α × Engine)) : Prop :=
  Option.Rel (fun a b => a.1 = b.1 ∧ a.2.view user = b.2.view user) first second

theorem Matched.cases {first second : Option (Except ActionError α × Engine)}
    (matched : Matched user first second) :
    (first = none ∧ second = none) ∨ ∃ answer left left',
      first = some (answer, left) ∧ second = some (answer, left') ∧
        left.view user = left'.view user :=
  exists_of_twins (R := fun left left' : Engine => left.view user = left'.view user) matched

theorem Matched.map {β : Type} {first second : Option (Except ActionError α × Engine)}
    (matched : Matched user first second) (f : Except ActionError α → Except ActionError β) :
    Matched user (first.map fun (answer, left) => (f answer, left))
      (second.map fun (answer, left) => (f answer, left)) := by
  cases matched with
  | none => exact .none
  | some given => exact .some ⟨congrArg f given.1, given.2⟩

/-- What is known of a program in sound registries is what expanding it gives. -/
theorem run_expansion_of_sound (sound : engine.registry.Sound) (name : String) :
    (expansion name).run engine =
      match (engine.registry.find? name).map Cached.program with
      | none => some (.error (.programNotFound name), engine)
      | some p => (Expansion.ofProgram engine.registry.functions p).run.map fun outcome =>
        (outcome.mapError .expand,
          { engine with registry := engine.registry.after (.degrees name) }) := by
  rw [run_expansion]
  cases found : engine.registry.find? name with
  | none => rfl
  | some c =>
    have mem : c ∈ engine.registry.mains.items := Catalog.mem_items_of_findKey? found
    have expanded := congrArg ExceptT.run (sound.expand_eq mem)
    rw [ExceptT.run_map] at expanded
    simp only [Option.map_some]
    rw [← expanded]
    cases (c.expand engine.registry.functions).run <;> rfl

section Matched

variable {engine' : Engine} (same : engine.view user = engine'.view user)
  (proper : engine.Proper) (proper' : engine'.Proper)

include same

theorem stopSession_matched (program : String) :
    Matched user ((stopSession user program).run engine)
      ((stopSession user program).run engine') := by
  rw [run_stopSession, run_stopSession, opened_congr same]
  cases engine'.opened user program with
  | error cause => exact .some ⟨rfl, same⟩
  | ok given =>
    obtain ⟨key, s⟩ := given
    exact .some ⟨rfl, (view_recorded_congr (view_withoutSession_congr same key) _).2⟩

include proper

theorem forward_matched (program : String) :
    Matched user ((forward user program).run engine) ((forward user program).run engine') := by
  rw [run_forward, run_forward, ← opened_congr same]
  cases found : engine.opened user program with
  | error cause => exact .some ⟨rfl, same⟩
  | ok given =>
    obtain ⟨key, s⟩ := given
    obtain ⟨-, payer⟩ := proper.opened found
    have credits := credits_congr same
    simp only
    obtain ⟨moved, moved'⟩ | ⟨outcome, ledger, ledger', moved, moved', credits⟩ := exists_of_twins
      (Session.forward_twins (Metered.congruent_of_balance user) payer credits)
    · rw [moved, moved']
      exact .none
    · rw [moved, moved']
      have charged := view_withLedger_congr same credits
      cases outcome with
      | error cause => exact .some ⟨rfl, charged⟩
      | ok t => exact .some ⟨rfl, view_withSession_congr charged key _⟩

theorem back_matched (program : String) :
    Matched user ((back user program).run engine) ((back user program).run engine') := by
  rw [run_back, run_back, ← opened_congr same]
  cases found : engine.opened user program with
  | error cause => exact .some ⟨rfl, same⟩
  | ok given =>
    obtain ⟨key, s⟩ := given
    obtain ⟨-, payer⟩ := proper.opened found
    have credits := credits_congr same
    obtain ⟨moved, credits⟩ := Session.back_twins (Metered.congruent_of_balance user) payer credits
    simp only [moved]
    exact .some ⟨rfl, view_withSession_congr (view_withLedger_congr same credits) key _⟩

theorem resume_matched (quiet : engine.alarm? = none) (quiet' : engine'.alarm? = none)
    (program : String) (breakpoints : List Nat) :
    Matched user ((resume user program breakpoints).run engine)
      ((resume user program breakpoints).run engine') := by
  rw [run_resume, run_resume, ← opened_congr same]
  cases found : engine.opened user program with
  | error cause => exact .some ⟨rfl, same⟩
  | ok given =>
    obtain ⟨key, s⟩ := given
    obtain ⟨-, payer⟩ := proper.opened found
    have credits := credits_congr same
    have signal : engine.signalFor key = {} := by
      rw [signalFor, quiet]
      rfl
    have signal' : engine'.signalFor key = {} := by
      rw [signalFor, quiet']
      rfl
    have moved := Session.resume_twins (s := { s.session with signal := {} })
      (Metered.congruent_of_balance user) ⟨payer, rfl⟩ credits breakpoints
    simp only [signal, signal']
    generalize Session.resume _ breakpoints engine.ledger = first at moved ⊢
    generalize Session.resume _ breakpoints engine'.ledger = second at moved ⊢
    cases moved with
    | none => exact .none
    | @some a b given =>
      obtain ⟨⟨t, failure?⟩, ledger⟩ := a
      obtain ⟨answer, ledger'⟩ := b
      obtain ⟨⟨rfl, credits⟩, -⟩ := given
      exact .some ⟨rfl, view_withSession_congr (view_withLedger_congr same credits) key _⟩

include proper'

theorem expansion_matched (name : String) :
    Matched user ((expansion name).run engine) ((expansion name).run engine') := by
  have program : (engine.registry.find? name).map Cached.program =
      (engine'.registry.find? name).map Cached.program :=
    congrFun (congrArg View.program? same) name
  have functions : engine.registry.functions = engine'.registry.functions :=
    congrArg View.functions same
  rw [run_expansion_of_sound proper.registry, run_expansion_of_sound proper'.registry, program,
    functions]
  cases (engine'.registry.find? name).map Cached.program with
  | none => exact .some ⟨rfl, same⟩
  | some p =>
    simp only
    cases (Expansion.ofProgram engine'.registry.functions p).run with
    | none => exact .none
    | some outcome =>
      refine .some ⟨rfl, ?_⟩
      rw [view_after_degrees engine proper.registry, view_after_degrees engine' proper'.registry,
        same]

theorem generation_matched (name : String) (degree : Nat) :
    Matched user ((generation name degree).run engine) ((generation name degree).run engine') := by
  obtain ⟨made, made'⟩ | ⟨answer, left, left', made, made', same⟩ :=
    (expansion_matched same proper proper' name).cases
  · rw [run_generation, run_generation, made, made']
    exact .none
  · rw [run_generation, run_generation, made, made']
    cases answer with
    | error cause => exact .some ⟨rfl, same⟩
    | ok e => exact .some ⟨rfl, same⟩

theorem launch_matched (r : Request) :
    Matched user ((launch user r).run engine) ((launch user r).run engine') := by
  obtain ⟨made, made'⟩ | ⟨answer, left, left', made, made', same⟩ :=
    (generation_matched same proper proper' r.program r.degree.toNat).cases
  · rw [run_launch, run_launch, made, made']
    exact .none
  · rw [run_launch, run_launch, made, made']
    cases answer with
    | error cause => exact .some ⟨rfl, same⟩
    | ok p =>
      have config : left.config = left'.config := congrArg View.config same
      have credits := credits_congr same
      have chosen : (r.architecture? <|> left.config.architecture?) =
          (r.architecture? <|> left'.config.architecture?) := by rw [config]
      simp only [chosen]
      generalize (r.architecture? <|> left'.config.architecture?).getD _ = architecture
      split
      · obtain ⟨paid, credits⟩ := Ledger.charge_congr architecture.runCost credits
        exact .some ⟨by rw [paid], view_withLedger_congr same credits⟩
      · exact .some ⟨rfl, same⟩

theorem perform_matched (r : RunRequest) :
    Matched user ((perform user r).run engine) ((perform user r).run engine') := by
  obtain ⟨launched, launched'⟩ | ⟨answer, left, left', launched, launched', same⟩ :=
    (launch_matched same proper proper' r.toRequest).cases
  · rw [run_perform, run_perform, launched, launched']
    exact .none
  · rw [run_perform, run_perform, launched, launched']
    cases answer with
    | error cause => exact .some ⟨rfl, same⟩
    | ok made =>
      obtain ⟨p, architecture⟩ := made
      have config : left.config = left'.config := congrArg View.config same
      have credits := credits_congr same
      have run : left.runFor user (r.strategy?.getD left.config.strategy) =
          left'.runFor user (r.strategy?.getD left'.config.strategy) := by
        rw [runFor_congr same, config]
      simp only [run]
      have twins := Run.perform_twins (Metered.congruent_of_balance user)
        (r := left'.runFor user (r.strategy?.getD left'.config.strategy)) rfl rfl p r.inputs credits
      obtain ⟨ended, ended'⟩ | ⟨outcome, ledger, ledger', ended, ended', credits⟩ :=
        exists_of_twins (R := fun l l' : Ledger => l.balance? user = l'.balance? user) twins
      · rw [ended, ended']
        exact .none
      · rw [ended, ended']
        have charged := view_withLedger_congr same credits
        cases outcome with
        | error cause => exact .some ⟨rfl, charged⟩
        | ok outcome =>
          obtain ⟨number, recorded⟩ := view_recorded_congr charged {
            number := 0, mode := .execution, program := p.name, degree := r.degree, architecture
            inputs := r.inputs, outcome }
          refine .some ⟨?_, recorded⟩
          simp only [number]

theorem startSession_matched (r : Request) :
    Matched user ((startSession user r).run engine) ((startSession user r).run engine') := by
  rw [run_startSession, run_startSession, keyFor_congr same]
  cases engine'.keyFor user r.program with
  | none => exact .some ⟨rfl, same⟩
  | some key =>
    simp only
    obtain ⟨launched, launched'⟩ | ⟨answer, left, left', launched, launched', same⟩ :=
      (launch_matched same proper proper' r).cases
    · rw [launched, launched']
      exact .none
    · rw [launched, launched']
      cases answer with
      | error cause => exact .some ⟨rfl, same⟩
      | ok made =>
        obtain ⟨p, architecture⟩ := made
        have config : left.config = left'.config := congrArg View.config same
        have run : left.runFor user left.config.strategy =
            left'.runFor user left'.config.strategy := by rw [runFor_congr same, config]
        simp only [run]
        exact .some ⟨rfl, view_withSession_congr same key _⟩

theorem act_matched (quiet : engine.alarm? = none) (quiet' : engine'.alarm? = none)
    (c : Command) :
    Matched user ((act user c).run engine) ((act user c).run engine') := by
  cases c with
  | run r =>
    rw [act, run_reply, run_reply]
    exact (perform_matched same proper proper' r).map _
  | start r =>
    rw [act, run_reply, run_reply]
    exact (startSession_matched same proper proper' r).map _
  | forward program =>
    rw [act, run_reply, run_reply]
    exact (forward_matched same proper program).map _
  | back program =>
    rw [act, run_reply, run_reply]
    exact (back_matched same proper program).map _
  | resume program breakpoints =>
    rw [act, run_reply, run_reply]
    exact (resume_matched same proper quiet quiet' program breakpoints).map _
  | state program =>
    rw [act, run_reply, run_reply, run_sessionState, run_sessionState, opened_congr same]
    exact .some ⟨rfl, same⟩
  | cancel program =>
    rw [act, run_reply, run_reply, run_cancel, run_cancel, opened_congr same]
    exact .some ⟨rfl, same⟩
  | stop program =>
    rw [act, run_reply, run_reply]
    exact (stopSession_matched same program).map _
  | degrees program =>
    rw [act, run_reply, run_reply, topDegree, run_reply, run_reply]
    exact ((expansion_matched same proper proper' program).map _).map _
  | runs =>
    have runs : engine.history.runs user = engine'.history.runs user := congrArg View.runs same
    exact .some ⟨congrArg (Except.ok ∘ Reply.runs) runs, same⟩
  | balance =>
    have credits := credits_congr same
    exact .some ⟨congrArg (Except.ok ∘ Reply.balance) credits, same⟩
  | deposit amount =>
    have credits := credits_congr same
    have credits := Ledger.deposit_congr amount credits
    exact .some ⟨congrArg (Except.ok ∘ Reply.balance) credits, view_withLedger_congr same credits⟩

end Matched

/-- The answers to the requests of one user. -/
def answersTo (user : String) (asked : List (String × Command))
    (answers : List (Except ActionError Reply)) : List (Except ActionError Reply) :=
  ((asked.zip answers).filter fun a => a.1.1 = user).map Prod.snd

/-- One request at a time: one of the user is made on both engines, one of another on the first. -/
theorem exists_play_alone {engine' : Engine} (same : engine.view user = engine'.view user)
    (proper : engine.Proper) (proper' : engine'.Proper) (quiet : engine.alarm? = none)
    (quiet' : engine'.alarm? = none) {asked : List (String × Command)}
    {answers : List (Except ActionError Reply)}
    (played : play (asked.map fun a => act a.1 a.2) engine = some (answers, left)) :
    ∃ alone, play ((asked.filter fun a => a.1 = user).map fun a => act a.1 a.2) engine' =
        some (answersTo user asked answers, alone) ∧
      left.Proper ∧ alone.Proper ∧ left.view user = alone.view user := by
  induction asked generalizing engine engine' answers with
  | nil =>
    cases played
    exact ⟨engine', rfl, proper, proper', same⟩
  | cons request rest ih =>
    obtain ⟨asker, c⟩ := request
    obtain ⟨answer, between, others, ran, later, rfl⟩ := play_cons_eq_some played
    have beside : Beside asker engine between := proper.act ran
    by_cases own : asker = user
    · subst own
      obtain ⟨none, -⟩ | ⟨answer, _, between', made, made', same⟩ :=
        (act_matched same proper proper' quiet quiet' c).cases
      · cases none.symm.trans ran
      · cases made.symm.trans ran
        have beside' := proper'.act made'
        obtain ⟨alone, later, kept⟩ := ih same beside.proper beside'.proper
          (beside.alarm.trans quiet) (beside'.alarm.trans quiet') later
        refine ⟨alone, ?_, kept⟩
        rw [List.filter_cons_of_pos (by simp), List.map_cons, play, made']
        simp only [Option.bind_some, later, Option.map_some, answersTo, List.zip_cons_cons]
        rw [List.filter_cons_of_pos (by simp), List.map_cons]
    · obtain ⟨alone, later, kept⟩ :=
        ih ((beside.others user own).trans same) beside.proper proper' (beside.alarm.trans quiet)
          quiet' later
      refine ⟨alone, ?_, kept⟩
      rw [List.filter_cons_of_neg (by simpa using own), later, answersTo, answersTo,
        List.zip_cons_cons, List.filter_cons_of_neg (by simpa using own)]

/-- An engine on which programs are registered and nothing has been run yet. -/
theorem proper_of_sound {config : Config} {stepLimit : Nat} {registry : Registry} {ledger : Ledger}
    {history : History} (sound : registry.Sound) :
    Proper { config, stepLimit, registry, ledger, history } :=
  ⟨sound, List.forall_mem_nil _⟩

theorem view_after_all_degrees (engine : Engine) {registry : Registry} (sound : registry.Sound)
    (names : List String) (user : String) :
    let known := names.foldl (fun r name => r.after (.degrees name)) registry
    known.Sound ∧ ({ engine with registry := known } : Engine).view user =
      ({ engine with registry } : Engine).view user := by
  induction names generalizing registry with
  | nil => exact ⟨sound, rfl⟩
  | cons name rest ih =>
    obtain ⟨later, views⟩ := ih (sound.after (.degrees name)).1
    have first := view_after_degrees { engine with registry } sound user name
    exact ⟨later, views.trans first⟩

/-- Whatever is registered, and in whatever order several users then run and debug programs, look
at their runs and credits and add to their credits: each of them is answered what the user's own
requests would be answered on an engine where nobody else asks for anything, and is left with the
same credits, sessions and past runs, be it that some programs were expanded there before or not.
The degrees of all programs are found to be the same, too. -/
theorem answers_as_alone (config : Config) (stepLimit : Nat) (registrations : List Registry.Event)
    (ledger : Ledger) (history : History) {asked : List (String × Command)}
    {answers : List (Except ActionError Reply)} {last : Engine}
    (played : play (asked.map fun a => act a.1 a.2)
      { config, stepLimit, registry := registrations.foldl Registry.after {}, ledger, history } =
        some (answers, last)) (user : String) (expanded : List String) :
    ∃ alone, play ((asked.filter fun a => a.1 = user).map fun a => act a.1 a.2)
        { config, stepLimit, ledger, history, registry := expanded.foldl
            (fun r name => r.after (.degrees name)) (registrations.foldl Registry.after {}) } =
          some (answersTo user asked answers, alone) ∧
      alone.ledger.balance? user = last.ledger.balance? user ∧
      alone.history.runs user = last.history.runs user ∧
      (∀ program,
        alone.sessions.lookup ⟨user, program⟩ = last.sessions.lookup ⟨user, program⟩) ∧
      ∀ name,
        ((expansion name).run alone).map Prod.fst = ((expansion name).run last).map Prod.fst := by
  have sound : (registrations.foldl Registry.after {}).Sound :=
    (Registry.sound_empty.foldl registrations).1
  obtain ⟨known, views⟩ :=
    view_after_all_degrees { config, stepLimit, ledger, history } sound expanded user
  obtain ⟨alone, answered, proper, proper', same⟩ := exists_play_alone views.symm
    (proper_of_sound sound) (proper_of_sound known) rfl rfl played
  refine ⟨alone, answered, (congrArg View.credits? same).symm, (congrArg View.runs same).symm,
    fun program => ?_, fun name => ?_⟩
  · have sessions := congrArg (List.lookup ⟨user, program⟩) (congrArg View.sessions same.symm)
    simpa only [view, lookup_filter_user] using sessions
  · have matched := expansion_matched same.symm proper' proper name
    generalize (expansion name).run alone = first at matched ⊢
    generalize (expansion name).run last = second at matched ⊢
    cases matched with
    | none => rfl
    | some given => exact congrArg some given.1

/-- The second user's run expands the program, and the second one fails for want of credits. The
first user's session is the same without. -/
theorem answers_as_alone_bump :
    let asked : List (String × Command) := [
      ("a", .deposit 10), ("b", .deposit 7), ("b", .run { program := "M" }),
      ("a", .start { program := "m" }), ("b", .run { program := "M" }),
      ("a", .forward "M"), ("a", .stop "M")]
    let engine : Engine := {
      stepLimit := 10, registry := Registry.after {} (.main bumping), ledger := .empty }
    ∃ answers last alone, play (asked.map fun a => act a.1 a.2) engine = some (answers, last) ∧
      play ((asked.filter fun a => a.1 = "a").map fun a => act a.1 a.2) engine =
        some (answersTo "a" asked answers, alone) ∧
      alone.ledger.balance? "a" = some 4 := by
  intro asked engine
  have credits : (play (asked.map fun a => act a.1 a.2) engine).map
      (fun ended => ended.2.ledger.balance? "a") = some (some 4) := by
    simp only [engine, after_bumping]
    decide +kernel
  obtain ⟨⟨answers, last⟩, played, credits⟩ := Option.map_eq_some_iff.1 credits
  obtain ⟨alone, answered, same, -⟩ :=
    answers_as_alone {} 10 [.main bumping] .empty {} played "a" []
  exact ⟨answers, last, alone, played, answered, same.trans credits⟩

end Engine

end SLanguage
