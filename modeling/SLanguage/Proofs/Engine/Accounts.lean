import SLanguage.Proofs.Engine.Dues
import SLanguage.Proofs.Engine.Privacy

/-! Accounts of an engine. What a user has paid in and does not have any more is what the user's
runs and sessions have cost, whatever succeeds, is refused or fails on the way. -/

namespace SLanguage

namespace Engine

variable {engine left : Engine} {user : String}

/-! Sums over the sessions of a user. -/

def tally (f : SessionId → OpenSession → Nat) (entries : List (SessionId × OpenSession)) : Nat :=
  (entries.map fun entry => f entry.1 entry.2).sum

section Tally

variable {f : SessionId → OpenSession → Nat} {entries : List (SessionId × OpenSession)}
  {key : SessionId} {s : OpenSession}

theorem tally_cons : tally f ((key, s) :: entries) = f key s + tally f entries := rfl

/-- The entry under a key, if there is one, counts once. -/
theorem tally_split (key : SessionId) (keys : (entries.map Prod.fst).Nodup) :
    tally f entries =
      ((entries.lookup key).map (f key)).getD 0 + tally f (entries.filter (·.1 != key)) := by
  induction entries with
  | nil => rfl
  | cons entry rest ih =>
    obtain ⟨own, t⟩ := entry
    obtain ⟨fresh, keys⟩ := List.nodup_cons.1 keys
    by_cases here : own = key
    · subst here
      have others : rest.filter (·.1 != own) = rest := by
        refine List.filter_eq_self.2 fun entry mem => ?_
        simp only [bne_iff_ne, ne_eq]
        rintro rfl
        exact fresh (List.mem_map.2 ⟨entry, mem, rfl⟩)
      rw [List.filter_cons_of_neg (by simp), others, tally_cons, List.lookup_cons, BEq.rfl]
      rfl
    · rw [List.filter_cons_of_pos (by simpa using here), tally_cons, tally_cons, ih keys,
        List.lookup_cons, beq_false_of_ne (Ne.symm here)]
      simp only
      omega

theorem lookup_of_mem (keys : (entries.map Prod.fst).Nodup) (mem : (key, s) ∈ entries) :
    entries.lookup key = some s := by
  induction entries with
  | nil => cases mem
  | cons entry rest ih =>
    obtain ⟨own, t⟩ := entry
    obtain ⟨fresh, keys⟩ := List.nodup_cons.1 keys
    obtain same | inside := List.mem_cons.1 mem
    · cases same
      rw [List.lookup_cons, BEq.rfl]
    · have ne : key ≠ own := by
        rintro rfl
        exact fresh (List.mem_map.2 ⟨(key, s), inside, rfl⟩)
      rw [List.lookup_cons, beq_false_of_ne ne]
      exact ih keys inside

theorem tally_congr {g : SessionId → OpenSession → Nat}
    (same : ∀ entry ∈ entries, f entry.1 entry.2 = g entry.1 entry.2) :
    tally f entries = tally g entries :=
  congrArg List.sum (List.map_congr_left same)

theorem nodup_put (keys : (entries.map Prod.fst).Nodup) :
    (((key, s) :: entries.filter (·.1 != key)).map Prod.fst).Nodup := by
  refine List.nodup_cons.2 ⟨fun mem => ?_, keys.sublist (List.filter_sublist.map _)⟩
  obtain ⟨entry, mem, rfl⟩ := List.mem_map.1 mem
  simpa using (List.mem_filter.1 mem).2

end Tally

/-- The sessions that are open for a user, by what they have cost so far. -/
def stake (engine : Engine) (user : String) : Nat :=
  tally (fun _ s => s.cost) (engine.view user).sessions

/-- The sessions that are open for a user, by what they will have cost. -/
def prospect (engine : Engine) (user : String) (deeds : List Deed) : Nat :=
  tally (fun key _ => lastCost key deeds engine) (engine.view user).sessions

/-- The accounts of a user are in order, with so many credits left. -/
structure Booked (engine : Engine) (user : String) (credits : Nat) : Prop where
  keys : ((engine.view user).sessions.map Prod.fst).Nodup
  onRun : ∀ entry ∈ (engine.view user).sessions,
    ∃ r p inputs, entry.2.session.OnRun r p (.ofInputs p inputs)
  available : engine.ledger.balance? user = some credits
  small : engine.ledger.Small user

/-- A deed that leaves so many credits takes what it costs: at once, or as the sessions that are
open cost more or less than before. What they will have cost is due. -/
structure Settles (user : String) (engine next : Engine) (deed : Deed) (rest : List Deed)
    (before after : Nat) : Prop where
  sum :
    after + due user engine rest deed + prospect engine user (deed :: rest) + stake next user =
      before + deed.deposit user + stake engine user + prospect next user rest
  ahead : prospect next user rest ≤ due user engine rest deed + prospect engine user (deed :: rest)

section Step

variable {deed : Deed} {rest : List Deed} {next : Engine} {key : SessionId} {s : OpenSession}
  {answer : Except ActionError Reply} {credits : Nat}

theorem lastCost_of_open (ran : deed.action.run engine = some (answer, next))
    (stays : deed.closes key engine = false) :
    lastCost key (deed :: rest) engine = lastCost key rest next := by
  rw [lastCost, stays, ran]
  rfl

theorem lastCost_of_closed (closed : deed.closes key engine = true) :
    lastCost key (deed :: rest) engine =
      ((engine.sessions.lookup key).map OpenSession.cost).getD 0 := by
  rw [lastCost, closed]
  rfl

theorem prospect_of_open (rest : List Deed) (ran : deed.action.run engine = some (answer, next))
    (stay : ∀ entry ∈ (engine.view user).sessions, deed.closes entry.1 engine = false) :
    prospect engine user (deed :: rest) =
      tally (fun key _ => lastCost key rest next) (engine.view user).sessions :=
  tally_congr fun entry mem => lastCost_of_open ran (stay entry mem)

theorem sessions_of_eq {other : Engine} (same : engine.sessions = other.sessions) :
    (engine.view user).sessions = (other.view user).sessions := by
  simp only [view, same]

theorem sessions_withSession (own : key.user = user) :
    ((engine.withSession key s).view user).sessions =
      (key, s) :: (engine.view user).sessions.filter (·.1 != key) := by
  rw [view_withSession, List.filter_cons_of_pos (by simpa using own)]
  rfl

theorem lookup_own (own : key.user = user) :
    (engine.view user).sessions.lookup key = engine.sessions.lookup key := by
  subst own
  exact lookup_filter_user engine.sessions key.user key.program

/-- Where a session is closed, the others are left. -/
theorem prospect_of_closed (rest : List Deed) (booked : engine.Booked user credits)
    (own : key.user = user)
    (ran : deed.action.run engine = some (answer, next)) (closed : deed.closes key engine = true)
    (stay : ∀ other, other ≠ key → deed.closes other engine = false) :
    prospect engine user (deed :: rest) =
      ((engine.sessions.lookup key).map OpenSession.cost).getD 0 +
        tally (fun key _ => lastCost key rest next)
          ((engine.view user).sessions.filter (·.1 != key)) := by
  have others : tally (fun key _ => lastCost key (deed :: rest) engine)
      ((engine.view user).sessions.filter (·.1 != key)) =
        tally (fun key _ => lastCost key rest next)
          ((engine.view user).sessions.filter (·.1 != key)) := by
    refine tally_congr fun entry mem => lastCost_of_open ran (stay entry.1 ?_)
    simpa using (List.mem_filter.1 mem).2
  rw [prospect, tally_split key booked.keys, others, lookup_own own, lastCost_of_closed closed]
  cases engine.sessions.lookup key <;> rfl

theorem stake_split (booked : engine.Booked user credits) (own : key.user = user) :
    stake engine user =
      ((engine.sessions.lookup key).map OpenSession.cost).getD 0 +
        tally (fun _ s => s.cost) ((engine.view user).sessions.filter (·.1 != key)) := by
  rw [stake, tally_split key booked.keys, lookup_own own]

/-- The sessions of the user stay as they are. -/
theorem Booked.of_sessions {after : Nat} (booked : engine.Booked user credits)
    (ran : deed.action.run engine = some (answer, next))
    (stay : ∀ entry ∈ (engine.view user).sessions, deed.closes entry.1 engine = false)
    (sessions : (next.view user).sessions = (engine.view user).sessions)
    (available : next.ledger.balance? user = some after) (small : next.ledger.Small user)
    (sum : after + due user engine rest deed = credits + deed.deposit user) :
    ∃ after, next.Booked user after ∧ Settles user engine next deed rest credits after := by
  refine ⟨after, ⟨sessions ▸ booked.keys, sessions ▸ booked.onRun, available, small⟩, ?_⟩
  have prospects := prospect_of_open rest ran stay
  constructor <;> rw [prospects, prospect, sessions]
  · rw [stake, stake, sessions]
    omega
  · omega

/-- A session of the user moves, and costs what it takes. -/
theorem Booked.of_moves (booked : engine.Booked user credits) (proper : engine.Proper)
    (ran : deed.action.run engine = some (answer, next))
    (stay : ∀ entry ∈ (engine.view user).sessions, deed.closes entry.1 engine = false)
    (free : due user engine rest deed = 0) (withdrawn : deed.deposit user = 0)
    (moves : Moves user engine next) :
    ∃ after, next.Booked user after ∧ Settles user engine next deed rest credits after := by
  cases moves with
  | still sessions balance =>
    refine booked.of_sessions ran stay (sessions_of_eq sessions)
      (balance.trans booked.available) ?_ (by omega)
    exact fun credits available => booked.small credits (balance ▸ available)
  | @moved key s t own found sessions balanced small onRun =>
    have payer : s.session.payer? = some user := own ▸ proper.payer (key, s) (mem_of_lookup found)
    have own_found := (lookup_own own).trans found
    have sessions : (next.view user).sessions = (key, { s with session := t }) ::
        (engine.view user).sessions.filter (·.1 != key) := by
      rw [sessions_of_eq sessions, sessions_withSession own]
    obtain ⟨-, after, available, sum⟩ :=
      balanced (credits + s.session.spent) ⟨payer, credits, booked.available, rfl⟩
    refine ⟨after, ⟨?_, ?_, available, small payer booked.small⟩, ?_⟩
    · rw [sessions]
      exact nodup_put booked.keys
    · rw [sessions]
      obtain ⟨r, p, inputs, there⟩ := booked.onRun (key, s) (mem_of_lookup own_found)
      exact List.forall_mem_cons.2 ⟨⟨r, p, inputs, onRun r p _ there⟩, fun entry mem =>
        booked.onRun entry (List.mem_of_mem_filter mem)⟩
    · -- the session is split off from what is open, so that only its own cost differs
      have before := stake_split booked own
      have later := tally_split (f := fun key _ => lastCost key rest next) key booked.keys
      have prospects := prospect_of_open rest ran stay
      rw [found, Option.map_some, Option.getD_some] at before
      rw [own_found, Option.map_some, Option.getD_some] at later
      have cost : s.cost = s.architecture.runCost + s.session.spent := rfl
      have moved : ({ s with session := t } : OpenSession).cost =
        s.architecture.runCost + t.spent := rfl
      constructor <;> rw [prospects, prospect, sessions, tally_cons, later]
      · rw [before, stake, sessions, tally_cons, cost, moved]
        omega
      · omega

/-- A session of the user is closed, with what it has cost. -/
theorem Booked.of_closed (booked : engine.Booked user credits) (own : key.user = user)
    (ran : deed.action.run engine = some (answer, next)) (closed : deed.closes key engine = true)
    (stay : ∀ other, other ≠ key → deed.closes other engine = false)
    (free : due user engine rest deed = 0) (withdrawn : deed.deposit user = 0)
    (sessions : next.sessions = (engine.withoutSession key).sessions)
    (ledger : next.ledger = engine.ledger) :
    ∃ after, next.Booked user after ∧ Settles user engine next deed rest credits after := by
  have sessions : (next.view user).sessions =
      (engine.view user).sessions.filter (·.1 != key) := by
    rw [sessions_of_eq sessions, view_withoutSession]
  refine ⟨credits, ⟨?_, ?_, ledger ▸ booked.available, ledger ▸ booked.small⟩, ?_⟩
  · rw [sessions]
    exact booked.keys.sublist (List.filter_sublist.map _)
  · rw [sessions]
    exact fun entry mem => booked.onRun entry (List.mem_of_mem_filter mem)
  · have before := stake_split booked own
    have prospects := prospect_of_closed rest booked own ran closed stay
    constructor <;> rw [prospects, prospect, sessions]
    · rw [before, stake, sessions]
      omega
    · omega

/-- A session is opened, in the place of an earlier one or not, and will cost what it will. -/
theorem Booked.of_opened {after : Nat} (booked : engine.Booked user credits) (own : key.user = user)
    (ran : deed.action.run engine = some (answer, next)) (closed : deed.closes key engine = true)
    (stay : ∀ other, other ≠ key → deed.closes other engine = false)
    (costs : due user engine rest deed = lastCost key rest next)
    (withdrawn : deed.deposit user = 0)
    (sessions : next.sessions = (engine.withSession key s).sessions)
    (onRun : ∃ r p inputs, s.session.OnRun r p (.ofInputs p inputs))
    (available : next.ledger.balance? user = some after) (sum : after + s.cost = credits) :
    ∃ after, next.Booked user after ∧ Settles user engine next deed rest credits after := by
  have sessions : (next.view user).sessions =
      (key, s) :: (engine.view user).sessions.filter (·.1 != key) := by
    rw [sessions_of_eq sessions, sessions_withSession own]
  have small := booked.small credits booked.available
  refine ⟨after, ⟨?_, ?_, available, fun left same => ?_⟩, ?_⟩
  · rw [sessions]
    exact nodup_put booked.keys
  · rw [sessions]
    exact List.forall_mem_cons.2 ⟨onRun, fun entry mem =>
      booked.onRun entry (List.mem_of_mem_filter mem)⟩
  · cases available.symm.trans same
    omega
  · have before := stake_split booked own
    have prospects := prospect_of_closed rest booked own ran closed stay
    constructor <;> rw [prospects, prospect, sessions, tally_cons, costs]
    · rw [before, stake, sessions, tally_cons]
      omega
    · omega

end Step

theorem keyFor_beq {program : String} {key other : SessionId}
    (leads : engine.keyFor user program = some key) (ne : other ≠ key) :
    (engine.keyFor user program == some other) = false := by
  rw [leads]
  exact beq_false_of_ne fun same => ne (Option.some.inj same).symm

section Own

variable {next : Engine} {credits : Nat} (booked : engine.Booked user credits)

include booked

theorem Booked.start {r : Request} {reply : Except ActionError Reply}
    {answer : Except ActionError Snapshot} (rest : List Deed)
    (ran : (Deed.of user (.start r)).action.run engine = some (reply, next))
    (made : (startSession user r).run engine = some (answer, next)) :
    ∃ after, next.Booked user after ∧
      Settles user engine next (.of user (.start r)) rest credits after := by
  have refused {cause : ActionError} (failed : answer = .error cause)
      (sessions : next.sessions = engine.sessions)
      (available : next.ledger.balance? user = some credits) :
      ∃ after, next.Booked user after ∧
        Settles user engine next (.of user (.start r)) rest credits after := by
    subst failed
    have free : due user engine rest (.of user (.start r)) = 0 := by
      simp only [due, made, if_true]
      cases engine.keyFor user r.program <;> rfl
    refine booked.of_sessions ran (fun _ _ => ?_) (sessions_of_eq sessions) available ?_ ?_
    · simp only [Deed.closes, made, succeeds, Bool.and_false]
    · exact fun left same =>
        booked.small left (booked.available.trans (available.symm.trans same))
    · rw [free]
      rfl
  have started := made
  rw [run_startSession] at made
  cases leads : engine.keyFor user r.program with
  | none =>
    rw [leads] at made
    cases made
    exact refused rfl rfl booked.available
  | some key =>
    rw [leads] at made
    simp only at made
    split at made
    · cases made
    · rename_i launched
      cases made
      obtain ⟨⟨sessions, -⟩, left, available, sum⟩ := credits_of_launch booked.available launched
      exact refused rfl sessions (by rwa [← show left = credits from sum])
    · rename_i p architecture between launched
      obtain ⟨⟨sessions, -⟩, left, available, sum⟩ := credits_of_launch booked.available launched
      cases made
      -- a session that was open under the key ends here, at what it has cost
      let run := between.runFor user between.config.strategy
      let s : OpenSession := {
        session := .start run p r.inputs, program := p.name, degree := r.degree, architecture
        inputs := r.inputs }
      refine booked.of_opened (s := s) (user_of_keyFor leads) ran ?_ (fun other ne => ?_) ?_ rfl ?_
        ⟨run, p, r.inputs, Session.onRun_start run p r.inputs⟩ available sum
      · simp only [Deed.closes, leads, started, succeeds, BEq.rfl, Bool.and_true]
      · rw [Deed.closes, keyFor_beq leads ne, Bool.false_and]
      · simp only [due, if_true, leads, started]
      · rw [withSession, withSession, sessions]

theorem Booked.stop {program : String} {reply : Except ActionError Reply}
    {answer : Except ActionError Snapshot} (rest : List Deed)
    (ran : (Deed.of user (.stop program)).action.run engine = some (reply, next))
    (made : (stopSession user program).run engine = some (answer, next)) :
    ∃ after, next.Booked user after ∧
      Settles user engine next (.of user (.stop program)) rest credits after := by
  have stopped := made
  rw [run_stopSession] at made
  cases found : engine.opened user program with
  | error cause =>
    rw [found] at made
    cases made
    refine booked.of_sessions ran (fun _ _ => ?_) rfl booked.available booked.small rfl
    simp only [Deed.closes, stopped, succeeds, Bool.and_false]
  | ok given =>
    obtain ⟨key, s⟩ := given
    obtain ⟨leads, -, own⟩ := opened_eq_ok found
    rw [found] at made
    cases made
    refine booked.of_closed own ran ?_ (fun other ne => ?_) rfl rfl rfl rfl
    · simp only [Deed.closes, leads, stopped, succeeds, BEq.rfl, Bool.and_true]
    · rw [Deed.closes, keyFor_beq leads ne, Bool.false_and]

/-- What a user asks for costs what it costs. -/
theorem Booked.act (proper : engine.Proper) {c : Command} {answer : Except ActionError Reply}
    (fits : (Deed.of user c).Fits user engine) (rest : List Deed)
    (ran : (act user c).run engine = some (answer, next)) :
    ∃ after, next.Booked user after ∧ Settles user engine next (.of user c) rest credits after := by
  cases c with
  | run r =>
    obtain ⟨_, made, rfl⟩ := run_reply_eq_some ran
    have small := booked.small credits booked.available
    obtain ⟨sessions, left, available, sum⟩ := credits_of_perform booked.available small made
    refine booked.of_sessions ran (fun _ _ => rfl) (sessions_of_eq sessions) available ?_ ?_
    · intro left' same
      cases available.symm.trans same
      omega
    · rw [due, if_pos rfl]
      exact sum
  | start r =>
    obtain ⟨_, made, rfl⟩ := run_reply_eq_some ran
    exact booked.start rest ran made
  | forward program =>
    obtain ⟨_, made, rfl⟩ := run_reply_eq_some ran
    exact booked.of_moves proper ran (fun _ _ => rfl) rfl rfl (moves_of_forward made)
  | back program =>
    obtain ⟨_, made, rfl⟩ := run_reply_eq_some ran
    exact booked.of_moves proper ran (fun _ _ => rfl) rfl rfl (moves_of_back (fits rfl) made)
  | resume program breakpoints =>
    obtain ⟨_, made, rfl⟩ := run_reply_eq_some ran
    exact booked.of_moves proper ran (fun _ _ => rfl) rfl rfl (moves_of_resume made)
  | state program =>
    obtain ⟨_, made, rfl⟩ := run_reply_eq_some ran
    rw [run_sessionState] at made
    cases made
    exact booked.of_sessions ran (fun _ _ => rfl) rfl booked.available booked.small rfl
  | cancel program =>
    obtain ⟨_, made, rfl⟩ := run_reply_eq_some ran
    rw [run_cancel] at made
    cases made
    exact booked.of_sessions ran (fun _ _ => rfl) rfl booked.available booked.small rfl
  | stop program =>
    obtain ⟨_, made, rfl⟩ := run_reply_eq_some ran
    exact booked.stop rest ran made
  | degrees program =>
    obtain ⟨_, asked, rfl⟩ := run_reply_eq_some ran
    obtain ⟨_, expanded, rfl⟩ := run_reply_eq_some asked
    obtain ⟨⟨sessions, -⟩, ledger⟩ := ledger_of_expansion expanded
    exact booked.of_sessions ran (fun _ _ => rfl) (sessions_of_eq sessions)
      (ledger ▸ booked.available) (ledger ▸ booked.small) rfl
  | runs =>
    have made := ran
    cases made
    exact booked.of_sessions ran (fun _ _ => rfl) rfl booked.available booked.small rfl
  | balance =>
    have made := ran
    cases made
    exact booked.of_sessions ran (fun _ _ => rfl) rfl booked.available booked.small rfl
  | deposit amount =>
    have made := ran
    cases made
    have fits := fits rfl credits booked.available
    refine booked.of_sessions ran (fun _ _ => rfl) rfl
      (Ledger.balance?_deposit booked.available fits) ?_ ?_
    · intro left same
      cases (Ledger.balance?_deposit booked.available fits).symm.trans same
      exact fits
    · rw [Deed.deposit, if_pos rfl]
      rfl

end Own

/-! What others ask for, and what is registered, costs a user nothing. -/

section Deeds

variable {asker : String} {next : Engine} {deed : Deed} {answer : Except ActionError Reply}
  {credits : Nat}

theorem closes_of_ne {key : SessionId} (ne : asker ≠ key.user) (engine : Engine) (c : Command) :
    (Deed.of asker c).closes key engine = false := by
  have elsewhere (program : String) : (engine.keyFor asker program == some key) = false :=
    beq_false_of_ne fun leads => ne (user_of_keyFor leads).symm
  cases c with
  | start r => rw [Deed.closes, elsewhere, Bool.false_and]
  | stop program => rw [Deed.closes, elsewhere, Bool.false_and]
  | _ => rfl

theorem due_of_ne (ne : asker ≠ user) (engine : Engine) (rest : List Deed) (c : Command) :
    due user engine rest (.of asker c) = 0 := by
  cases c with
  | run r => rw [due, if_neg ne]
  | start r => rw [due, if_neg ne]
  | _ => rfl

theorem deposit_of_ne (ne : asker ≠ user) (c : Command) : (Deed.of asker c).deposit user = 0 := by
  cases c with
  | deposit amount => rw [Deed.deposit, if_neg ne]
  | _ => rfl

theorem run_registered (add : Registry → Except RegistrationError (Program × Registry))
    (ran : (do register add; return .done : Action Reply).run engine = some (answer, next)) :
    next = { engine with registry := engine.registry.settle (add engine.registry) } := by
  rw [Keeping.run_bind, run_register] at ran
  cases given : add engine.registry with
  | error cause =>
    rw [given] at ran
    cases ran
    rfl
  | ok entered =>
    rw [given] at ran
    cases ran
    rfl

/-- One deed: it leaves the accounts in order, and settles what it costs. -/
theorem Booked.step (booked : engine.Booked user credits) (proper : engine.Proper)
    (fits : deed.Fits user engine) (rest : List Deed)
    (ran : deed.action.run engine = some (answer, next)) :
    next.Proper ∧
      ∃ after, next.Booked user after ∧ Settles user engine next deed rest credits after := by
  have registered {deed : Deed} (event : Registry.Event)
      (ran : deed.action.run engine = some (answer, next))
      (entered : next = { engine with registry := engine.registry.after event })
      (stay : ∀ key, deed.closes key engine = false)
      (free : due user engine rest deed = 0) (withdrawn : deed.deposit user = 0) :
      next.Proper ∧
        ∃ after, next.Booked user after ∧ Settles user engine next deed rest credits after := by
    subst entered
    exact ⟨⟨(proper.registry.after event).1, proper.payer⟩,
      booked.of_sessions ran (fun entry _ => stay entry.1) rfl booked.available booked.small
        (by omega)⟩
  cases deed with
  | of asker c =>
    have beside : Beside asker engine next := proper.act ran
    refine ⟨beside.proper, ?_⟩
    by_cases own : asker = user
    · subst own
      exact booked.act proper fits rest ran
    · have same := beside.others user own
      have credits := credits_congr same
      refine booked.of_sessions ran (fun entry mem => closes_of_ne ?_ engine c)
        (congrArg View.sessions same) (credits.trans booked.available) ?_ ?_
      · have user : entry.1.user = user := by simpa using (List.mem_filter.1 mem).2
        rwa [user]
      · exact fun left available => booked.small left (credits ▸ available)
      · rw [due_of_ne own, deposit_of_ne own]
  | main d =>
    exact registered (.main d) ran (run_registered (·.enterMain d) ran) (fun _ => rfl) rfl rfl
  | function d =>
    exact registered (.function d) ran (run_registered (·.enterFunction d) ran) (fun _ => rfl)
      rfl rfl
  | bundle b =>
    exact registered (.bundle b) ran (run_registered (·.enterBundle b) ran) (fun _ => rfl) rfl rfl
  | alarm asker program count =>
    have made := ran
    cases made
    exact ⟨⟨proper.registry, proper.payer⟩,
      booked.of_sessions ran (fun _ _ => rfl) rfl booked.available booked.small rfl⟩

end Deeds

/-- What a user has paid in. -/
def deposited (user : String) (deeds : List Deed) : Nat :=
  (deeds.map (Deed.deposit user)).sum

theorem deposited_cons (user : String) (deed : Deed) (deeds : List Deed) :
    deposited user (deed :: deeds) = deed.deposit user + deposited user deeds :=
  rfl

theorem prospect_nil {credits : Nat} (booked : engine.Booked user credits) :
    prospect engine user [] = stake engine user := by
  refine tally_congr fun entry mem => ?_
  obtain ⟨key, s⟩ := entry
  have own : key.user = user := by simpa using (List.mem_filter.1 mem).2
  have found : engine.sessions.lookup key = some s := by
    rw [← lookup_own own]
    exact lookup_of_mem booked.keys mem
  rw [lastCost, found]
  rfl

theorem Booked.play {credits : Nat} {deeds : List Deed} {answers : List (Except ActionError Reply)}
    {last : Engine} (booked : engine.Booked user credits) (proper : engine.Proper)
    (fits : AllFit user deeds engine)
    (played : play (deeds.map Deed.action) engine = some (answers, last)) :
    last.Proper ∧ ∃ after, last.Booked user after ∧
      after + owed user deeds engine + prospect engine user deeds =
        credits + deposited user deeds + stake engine user := by
  induction deeds generalizing engine credits answers with
  | nil =>
    cases played
    exact ⟨proper, credits, booked, by rw [prospect_nil booked]; rfl⟩
  | cons deed rest ih =>
    obtain ⟨answer, next, others, ran, later, rfl⟩ := play_cons_eq_some played
    obtain ⟨proper, mid, booked, settles⟩ := booked.step proper fits.1 rest ran
    obtain ⟨proper, after, booked, total⟩ := ih booked proper (fits.2 answer next ran) later
    refine ⟨proper, after, booked, ?_⟩
    -- stakes and prospects after the first deed are those before the rest, and cancel
    have sum := settles.sum
    rw [owed, ran, deposited_cons]
    simp only
    omega

theorem Booked.fits {credits : Nat} {deed : Deed} (booked : engine.Booked user credits)
    (few : credits + stake engine user + deed.deposit user ≤ Amount.largest) :
    deed.Fits user engine := by
  cases deed with
  | of asker c =>
    cases c with
    | deposit amount =>
      intro own left available
      cases booked.available.symm.trans available
      rw [Deed.deposit, if_pos own] at few
      omega
    | back program =>
      intro own key s found v left behind available
      cases booked.available.symm.trans available
      subst own
      obtain ⟨-, found, own⟩ := opened_eq_ok found
      have open_stake := stake_split booked own
      rw [found, Option.map_some, Option.getD_some, OpenSession.cost] at open_stake
      have cost : v.cost ≤ s.session.spent := by
        obtain ⟨_, past⟩ := List.head?_eq_some_iff.1 behind
        rw [Session.spent, past, List.map_cons, List.sum_cons]
        exact Nat.le_add_right _ _
      omega
    | _ => trivial
  | _ => trivial

/-- No deposit and no refund reaches the largest amount if all that is paid in does not. For no
user ever has more than that. -/
theorem Booked.allFit {credits : Nat} {deeds : List Deed} (booked : engine.Booked user credits)
    (proper : engine.Proper)
    (few : credits + stake engine user + deposited user deeds ≤ Amount.largest) :
    AllFit user deeds engine := by
  induction deeds generalizing engine credits with
  | nil => trivial
  | cons deed rest ih =>
    rw [deposited_cons] at few
    have fits : deed.Fits user engine := booked.fits (by omega)
    refine ⟨fits, fun answer next ran => ?_⟩
    obtain ⟨proper, after, booked, settles⟩ := booked.step proper fits rest ran
    have sum := settles.sum
    have ahead := settles.ahead
    exact ih booked proper (by omega)

/-- An engine with which nothing has been done. -/
def atStart (config : Config) (stepLimit : Nat) : Engine where
  config
  stepLimit
  ledger := .empty

theorem proper_atStart (config : Config) (stepLimit : Nat) : (atStart config stepLimit).Proper :=
  proper_of_sound Registry.sound_empty

theorem run_bumping (config : Config) (stepLimit : Nat) :
    (Deed.main bumping).action.run (atStart config stepLimit) =
      some (.ok .done, { atStart config stepLimit with registry := bumped }) := by
  have entered : (atStart config stepLimit).registry.enterMain bumping = .ok (bump, bumped) :=
    enterMain_bumping
  change (do register (·.enterMain bumping); return .done : Action Reply).run _ = _
  rw [Keeping.run_bind, run_register, entered]
  rfl

theorem booked_atStart (config : Config) (stepLimit : Nat) (user : String) :
    (atStart config stepLimit).Booked user 0 where
  keys := List.nodup_nil
  onRun := List.forall_mem_nil _
  available := rfl
  small credits available := by
    cases available
    exact Nat.zero_le _

/-- Users register, run and debug programs and pay in, in whatever order, and no deposit or refund
of a user reaches the largest amount. What the user has paid in and does not have any more is what
the user's runs and sessions have cost: each run that fails after its fee is paid, the fee and what
it has executed and paid for; each that succeeds, its fee and its cycles; and each session, its fee
and the steps behind it when it was last seen. So a run that is recorded costs its fee and the
cycles it is recorded with, and a session that is recorded has cost no more than that. -/
theorem accounts_balance (config : Config) (stepLimit : Nat) {deeds : List Deed}
    {answers : List (Except ActionError Reply)} {last : Engine}
    (played : play (deeds.map Deed.action) (atStart config stepLimit) = some (answers, last))
    {user : String} (fits : AllFit user deeds (atStart config stepLimit)) :
    (∃ credits, last.ledger.balance? user = some credits ∧
      credits + owed user deeds (atStart config stepLimit) = deposited user deeds) ∧
    (∀ r response left, (perform user r).run last = some (.ok response, left) →
      ∃ past : PastRun, past.mode = .execution ∧
        left.history.runs user = last.history.runs user ++ [past] ∧
        ∃ before after, last.ledger.balance? user = some before ∧
          left.ledger.balance? user = some after ∧
          after + (past.architecture.runCost + past.outcome.cycles.toNat) = before) ∧
    ∀ program shown left, (stopSession user program).run last = some (.ok shown, left) →
      ∃ key s, last.opened user program = .ok (key, s) ∧
        ∃ past : PastRun, past.mode = .debug ∧
          left.history.runs user = last.history.runs user ++ [past] ∧
          ((s.session.history.map Visit.cost).sum < UInt64.size →
            s.cost ≤ past.architecture.runCost + past.outcome.cycles.toNat) := by
  have booked := booked_atStart config stepLimit user
  obtain ⟨proper, credits, booked, sum⟩ :=
    booked.play (proper_atStart config stepLimit) fits played
  have small := booked.small credits booked.available
  refine ⟨⟨credits, booked.available, ?_⟩, fun r response left ran => ?_,
    fun program shown left ran => ?_⟩
  · have none : stake (atStart config stepLimit) user = 0 := rfl
    have none' : prospect (atStart config stepLimit) user deeds = 0 := rfl
    omega
  · obtain ⟨past, mode, recorded, cost⟩ := record_of_perform booked.available ran
    obtain ⟨-, after, available, sum⟩ := credits_of_perform booked.available small ran
    exact ⟨past, mode, recorded, credits, after, booked.available, available, cost ▸ sum⟩
  · obtain ⟨key, s, found, past, mode, recorded, architecture, cycles⟩ := record_of_stop ran
    refine ⟨key, s, found, past, mode, recorded, fun exact => ?_⟩
    obtain ⟨-, there, own⟩ := opened_eq_ok found
    obtain ⟨r, p, inputs, onRun⟩ :=
      booked.onRun (key, s) (mem_of_lookup ((lookup_own own).trans there))
    rw [architecture, cycles]
    exact OpenSession.cost_le onRun exact

/-- The first user pays for a run, for a session that is stepped back before another takes its
place, and for that one with its step. -/
theorem accounts_balance_bump :
    let deeds : List Deed := [
      .main bumping, .of "a" (.deposit 30), .of "b" (.deposit 7), .of "a" (.run { program := "M" }),
      .of "a" (.start { program := "m" }), .of "b" (.run { program := "M" }),
      .of "a" (.forward "M"), .of "a" (.back "M"), .of "b" (.run { program := "M" }),
      .of "a" (.start { program := "M" }), .of "a" (.forward "M")]
    ∃ answers last, play (deeds.map Deed.action) (atStart {} 10) = some (answers, last) ∧
      last.ledger.balance? "a" = some 13 ∧ owed "a" deeds (atStart {} 10) = 17 ∧
      ∃ response left, (perform "a" { program := "M" }).run last = some (.ok response, left) ∧
        ∃ past : PastRun, left.history.runs "a" = last.history.runs "a" ++ [past] ∧
          left.ledger.balance? "a" = some 7 ∧
          7 + (past.architecture.runCost + past.outcome.cycles.toNat) = 13 := by
  intro deeds
  have ended : (play (deeds.map Deed.action) (atStart {} 10)).map (fun e =>
      (e.2.ledger.balance? "a", ((perform "a" { program := "M" }).run e.2).map fun e =>
        (e.1.isOk, e.2.ledger.balance? "a"))) = some (some 13, some (true, some 7)) := by
    change (((Deed.main bumping).action.run (atStart {} 10)).bind _).map _ = _
    rw [run_bumping]
    decide +kernel
  obtain ⟨⟨answers, last⟩, played, same⟩ := Option.map_eq_some_iff.1 ended
  obtain ⟨credits, performed⟩ := Prod.mk.inj same
  obtain ⟨⟨answer, left⟩, performed, same⟩ := Option.map_eq_some_iff.1 performed
  obtain ⟨ok, rest⟩ := Prod.mk.inj same
  cases answer with
  | error cause => cases ok
  | ok response =>
    have paid_in : deposited "a" deeds = 30 := rfl
    have fits : AllFit "a" deeds (atStart {} 10) :=
      (booked_atStart {} 10 "a").allFit (proper_atStart {} 10) (by decide)
    obtain ⟨⟨_, available, sum⟩, executions, -⟩ := accounts_balance {} 10 played fits
    cases credits.symm.trans available
    obtain ⟨past, -, recorded, before, after, had, has, cost⟩ := executions _ _ _ performed
    cases credits.symm.trans had
    cases rest.symm.trans has
    exact ⟨answers, last, played, credits, by omega, response, left, performed, past, recorded,
      rest, cost⟩

end Engine

end SLanguage
