import SLanguage.Proofs.Engine.Views

/-! What runs and sessions cost a user: each of them its fee, a run the instructions that it has
executed and paid for, and a session the steps that lie behind it. A run takes this at once. A
session is charged as it is moved, and gets back what it goes back over. -/

namespace SLanguage

/-- The cost of the instructions that a run executes and that are paid for, until it ends. -/
def Run.paidCost (r : Run) (p : Program) : Nat → Machine → Ledger → Nat
  | 0, _, _ => 0
  | n + 1, m, ledger =>
    match (m.step (r.evaluator.answerAt 0) p).run with
    | some (.ok (some v)) =>
      match Metered.bill r.payer? v.cost ledger with
      | (.ok (), ledger) => v.cost + paidCost r p n v.after ledger
      | (.error _, _) => 0
    | _ => 0

/-- What a session has cost: its fee, and the steps that lie behind it. -/
def OpenSession.cost (s : OpenSession) : Nat :=
  s.architecture.runCost + s.session.spent

/-- A session costs no more than all steps that are known. -/
theorem OpenSession.cost_le {s : OpenSession} {r : Run} {p : Program} {inputs : List Int64}
    (onRun : s.session.OnRun r p (.ofInputs p inputs))
    (exact : (s.session.history.map Visit.cost).sum < UInt64.size) :
    s.cost ≤ s.architecture.runCost + s.session.last.cycles.toNat := by
  have known : (s.session.history.map Visit.cost).sum =
      s.session.spent + (s.session.future.map Visit.cost).sum := by
    rw [Session.history, List.map_append, List.sum_append, List.map_reverse, List.sum_reverse]
    rfl
  rw [cost, onRun.cycles_last rfl exact, known]
  omega

namespace Engine

/-- What running a program costs a user: nothing if it fails before the fee is paid, the fee and
the cycles of the outcome if it succeeds, and the fee and what has been executed and paid for if it
fails later. -/
def executionDue (engine : Engine) (user : String) (r : RunRequest) : Nat :=
  match (launch user r.toRequest).run engine with
  | some (.ok (p, architecture), left) =>
    architecture.runCost +
      match (perform user r).run engine with
      | some (.ok response, _) => response.outcome.cycles.toNat
      | _ =>
        let run := left.runFor user (r.strategy?.getD left.config.strategy)
        run.paidCost p run.evaluator.stepLimit (.ofInputs p r.inputs) left.ledger
  | _ => 0

def succeeds {ε α : Type} : Option (Except ε α × Engine) → Bool
  | some (.ok _, _) => true
  | _ => false

/-- The session under a key, if there is one, is closed or gives way to another. -/
def Deed.closes (key : SessionId) (engine : Engine) : Deed → Bool
  | .of user (.start r) =>
    engine.keyFor user r.program == some key && succeeds ((startSession user r).run engine)
  | .of user (.stop program) =>
    engine.keyFor user program == some key && succeeds ((stopSession user program).run engine)
  | _ => false

/-- What the session under a key has cost when it is last seen: before it is closed or gives way to
another, or else in the end. -/
def lastCost (key : SessionId) : List Deed → Engine → Nat
  | [], engine => ((engine.sessions.lookup key).map OpenSession.cost).getD 0
  | deed :: rest, engine =>
    if deed.closes key engine then ((engine.sessions.lookup key).map OpenSession.cost).getD 0
    else
      match deed.action.run engine with
      | some (_, next) => lastCost key rest next
      | none => 0

/-- What a deed costs a user, as it turns out with the deeds that come after it. -/
def due (user : String) (engine : Engine) (rest : List Deed) : Deed → Nat
  | .of asker (.run r) => if asker = user then engine.executionDue user r else 0
  | .of asker (.start r) =>
    if asker = user then
      match engine.keyFor user r.program, (startSession user r).run engine with
      | some key, some (.ok _, next) => lastCost key rest next
      | _, _ => 0
    else 0
  | _ => 0

def owed (user : String) : List Deed → Engine → Nat
  | [], _ => 0
  | deed :: rest, engine =>
    due user engine rest deed +
      match deed.action.run engine with
      | some (_, next) => owed user rest next
      | none => 0

/-- What a deed adds to the credits of a user. -/
def Deed.deposit (user : String) : Deed → Nat
  | .of asker (.deposit amount) => if asker = user then amount else 0
  | _ => 0

/-- No deposit and no refund of the user reaches the largest amount. -/
def Deed.Fits (user : String) (engine : Engine) : Deed → Prop
  | .of asker (.deposit amount) => asker = user → ∀ left,
    engine.ledger.balance? user = some left → left + amount ≤ Amount.largest
  | .of asker (.back program) => asker = user → ∀ key s,
    engine.opened user program = .ok (key, s) → s.session.RefundFits user engine.ledger
  | _ => True

def AllFit (user : String) : List Deed → Engine → Prop
  | [], _ => True
  | deed :: rest, engine =>
    deed.Fits user engine ∧
      ∀ answer next, deed.action.run engine = some (answer, next) → AllFit user rest next

end Engine

/-- A user's credits are below the limit. -/
def Ledger.Small (user : String) (l : Ledger) : Prop :=
  ∀ credits, l.balance? user = some credits → credits ≤ Amount.largest

theorem Ledger.Small.of_map {l after : Ledger} {user : String} {f : Nat → Nat}
    (small : l.Small user) (same : after.balance? user = (l.balance? user).map f)
    (le : ∀ credits, f credits ≤ max credits Amount.largest) : after.Small user := by
  intro credits available
  rw [same] at available
  obtain ⟨before, had, rfl⟩ := Option.map_eq_some_iff.1 available
  have := small before had
  have := le before
  omega

theorem Metered.closed_small (user : String) : Closed (some user) (Ledger.Small user) where
  bill l amount small := by
    have same : ((Metered.bill (some user) amount l).2).balance? user = l.balance? user ∨
        ((Metered.bill (some user) amount l).2).balance? user =
          (l.balance? user).map fun credits => credits - amount := by
      generalize billed : Metered.bill (some user) amount l = result
      obtain ⟨paid, after⟩ := result
      cases paid with
      | error c =>
        left
        rw [Ledger.balance?, Ledger.balances?_of_charge_error billed, Ledger.balance?]
      | ok =>
        right
        cases available : l.balance? user with
        | none =>
          have enough : ∀ credits, l.balance? user = some credits → amount ≤ credits :=
            fun credits had => by cases available.symm.trans had
          obtain ⟨after', charged, balance⟩ := l.exists_charge enough
          obtain rfl : after' = after := congrArg Prod.snd (charged.symm.trans billed)
          rw [balance, available]
        | some credits =>
          obtain ⟨left, balance, rfl⟩ := Ledger.balance?_of_charge_ok available billed
          rw [balance, Option.map_some, Nat.add_sub_cancel]
    obtain same | same := same
    · exact fun credits available => small credits (same ▸ available)
    · exact small.of_map same fun credits => by omega
  refund l amount small := by
    unfold Metered.refund Ledger.refund
    simp only
    split
    · exact small
    · exact small.of_map (l.balance?_deposit_self user amount) fun credits =>
        Nat.le_trans (Amount.sum_le _ _) (Nat.le_max_right _ _)

/-! Runs. -/

namespace Run

variable {r : Run} {p : Program} {user : String} {before after : Ledger}

/-- A run takes from its payer what it executes and is paid for, and those are its cycles. -/
theorem toEnd_paidCost (signal : r.signal = {}) (payer : r.payer? = some user) {n : Nat}
    {m : Machine} {outcome : Except RunError Machine} {credits : Nat}
    (available : before.balance? user = some credits)
    (ran : (r.toEnd p n m).run before = some (outcome, after)) :
    (∃ left, after.balance? user = some left ∧ left + r.paidCost p n m before = credits) ∧
      ∀ last, outcome = .ok last → m.cycles ≤ Amount.largest →
        last.cycles = Amount.sum m.cycles (r.paidCost p n m before) := by
  induction n generalizing m before credits with
  | zero => cases ran
  | succ n ih =>
    rw [run_toEnd_succ signal] at ran
    rw [paidCost]
    split at ran
    · cases ran
    · rename_i step
      cases ran
      simp only [step]
      exact ⟨⟨credits, available, rfl⟩, fun last none => nomatch none⟩
    · rename_i step
      cases ran
      simp only [step]
      refine ⟨⟨credits, available, rfl⟩, fun last same small => ?_⟩
      cases same
      exact (Amount.sum_eq (b := 0) small).symm
    · rename_i v step
      simp only [step]
      split at ran
      · rename_i c left bill
        cases ran
        simp only [bill]
        rw [payer] at bill
        have same := Ledger.balances?_of_charge_error bill
        refine ⟨⟨credits, ?_, rfl⟩, fun last none => nomatch none⟩
        rw [← available, Ledger.balance?, same, Ledger.balance?]
      · rename_i between bill
        simp only [bill]
        rw [payer] at bill
        obtain ⟨rest, balance, paid⟩ := Ledger.balance?_of_charge_ok available bill
        obtain ⟨⟨left, balance, sum⟩, cycles⟩ := ih balance ran
        refine ⟨⟨left, balance, by omega⟩, fun last same small => ?_⟩
        have counted := Machine.cycles_of_step step
        rw [cycles last same (counted ▸ Amount.sum_le _ _), counted, Amount.sum_assoc]
        simp only [Amount.sum]
        omega

theorem perform_paidCost (signal : r.signal = {}) (payer : r.payer? = some user)
    {inputs : List Int64} {outcome : Except RunError Outcome} {credits : Nat}
    (available : before.balance? user = some credits) (small : credits ≤ Amount.largest)
    (ran : (r.perform p inputs).run before = some (outcome, after)) :
    (∃ left, after.balance? user = some left ∧
      left + r.paidCost p r.evaluator.stepLimit (.ofInputs p inputs) before = credits) ∧
      ∀ o, outcome = .ok o → o.cycles.toNat =
        r.paidCost p r.evaluator.stepLimit (.ofInputs p inputs) before := by
  rw [run_perform] at ran
  obtain ⟨⟨ended, left⟩, ran, same⟩ := Option.map_eq_some_iff.1 ran
  cases same
  obtain ⟨⟨left, balance, sum⟩, cycles⟩ := toEnd_paidCost signal payer available ran
  refine ⟨⟨left, balance, sum⟩, fun o same => ?_⟩
  cases ended with
  | error e => cases same
  | ok m =>
    cases same
    have counted : m.cycles = _ := (cycles m rfl (Nat.zero_le _)).trans (Amount.sum_eq (by
      change 0 + _ ≤ _
      omega))
    have largest : Amount.largest < UInt64.size := by decide
    change (UInt64.ofNat m.cycles).toNat = _
    rw [counted]
    change (UInt64.ofNat (0 + _)).toNat = _
    rw [Nat.zero_add, UInt64.toNat_ofNat_of_lt' (by omega)]

end Run

namespace Engine

variable {engine left : Engine} {user : String}

/-- The sessions and the past runs are the same. -/
def SameRecords (engine left : Engine) : Prop :=
  left.sessions = engine.sessions ∧ left.history = engine.history

/-- Working out degrees costs nothing. -/
theorem ledger_of_expansion {name : String} {answer : Except ActionError Expansion}
    (ran : (expansion name).run engine = some (answer, left)) :
    SameRecords engine left ∧ left.ledger = engine.ledger := by
  rw [run_expansion] at ran
  split at ran
  · cases ran
    exact ⟨⟨rfl, rfl⟩, rfl⟩
  · obtain ⟨_, -, same⟩ := Option.map_eq_some_iff.1 ran
    cases same
    exact ⟨⟨rfl, rfl⟩, rfl⟩

theorem ledger_of_generation {name : String} {degree : Nat} {answer : Except ActionError Program}
    (ran : (generation name degree).run engine = some (answer, left)) :
    SameRecords engine left ∧ left.ledger = engine.ledger := by
  rw [run_generation] at ran
  split at ran
  · cases ran
  · rename_i expanded
    cases ran
    exact ledger_of_expansion expanded
  · rename_i expanded
    cases ran
    exact ledger_of_expansion expanded

/-- A launch takes its fee or nothing. -/
theorem credits_of_launch {r : Request} {answer : Except ActionError (Program × Architecture)}
    {credits : Nat} (available : engine.ledger.balance? user = some credits)
    (ran : (launch user r).run engine = some (answer, left)) :
    SameRecords engine left ∧ ∃ rest, left.ledger.balance? user = some rest ∧
      rest + (answer.toOption.map fun made => made.2.runCost).getD 0 = credits := by
  rw [run_launch] at ran
  split at ran
  · cases ran
  · rename_i made
    cases ran
    obtain ⟨records, ledger⟩ := ledger_of_generation made
    exact ⟨records, credits, ledger ▸ available, rfl⟩
  · rename_i p between made
    obtain ⟨records, ledger⟩ := ledger_of_generation made
    have available : between.ledger.balance? user = some credits := ledger ▸ available
    simp only at ran
    split at ran
    · generalize (r.architecture? <|> between.config.architecture?).getD _ = architecture at ran
      generalize charged : between.ledger.charge user architecture.runCost = billed at ran
      obtain ⟨paid, after⟩ := billed
      cases ran
      refine ⟨records, ?_⟩
      cases paid with
      | error short =>
        have same := Ledger.balances?_of_charge_error charged
        refine ⟨credits, ?_, rfl⟩
        rw [← available, Ledger.balance?, same, Ledger.balance?]
      | ok => exact Ledger.balance?_of_charge_ok available charged
    · cases ran
      exact ⟨records, credits, available, rfl⟩

/-- Running a program takes what it costs. -/
theorem credits_of_perform {r : RunRequest} {answer : Except ActionError RunResponse}
    {credits : Nat} (available : engine.ledger.balance? user = some credits)
    (small : credits ≤ Amount.largest) (ran : (perform user r).run engine = some (answer, left)) :
    left.sessions = engine.sessions ∧ ∃ rest, left.ledger.balance? user = some rest ∧
      rest + engine.executionDue user r = credits := by
  have performed := ran
  rw [run_perform] at ran
  unfold executionDue
  split at ran
  · cases ran
  · rename_i launched
    cases ran
    simp only [launched]
    obtain ⟨records, paid⟩ := credits_of_launch available launched
    exact ⟨records.1, paid⟩
  · rename_i p architecture between launched
    obtain ⟨records, rest, available, sum⟩ := credits_of_launch available launched
    change rest + architecture.runCost = credits at sum
    simp only [launched, performed]
    obtain ⟨⟨outcome, ledger⟩, made, same⟩ := Option.map_eq_some_iff.1 ran
    obtain ⟨⟨rest', balance, sum'⟩, cycles⟩ :=
      Run.perform_paidCost rfl rfl available (by omega) made
    cases outcome with
    | error cause =>
      cases same
      exact ⟨records.1, rest', balance, by simp only; omega⟩
    | ok o =>
      cases same
      have counted := cycles o rfl
      exact ⟨records.1, rest', balance, by simp only; omega⟩

/-- A run that is recorded is recorded with what it cost. -/
theorem record_of_perform {r : RunRequest} {response : RunResponse} {credits : Nat}
    (available : engine.ledger.balance? user = some credits)
    (ran : (perform user r).run engine = some (.ok response, left)) :
    ∃ past : PastRun, past.mode = .execution ∧
      left.history.runs user = engine.history.runs user ++ [past] ∧
      engine.executionDue user r = past.architecture.runCost + past.outcome.cycles.toNat := by
  have performed := ran
  rw [run_perform] at ran
  split at ran
  · cases ran
  · cases ran
  · rename_i p architecture between launched
    obtain ⟨⟨-, history⟩, -⟩ := credits_of_launch available launched
    obtain ⟨⟨outcome, ledger⟩, -, same⟩ := Option.map_eq_some_iff.1 ran
    cases outcome with
    | error cause => cases same
    | ok o =>
      cases same
      let past : PastRun := {
        number := 0, mode := .execution, program := p.name, degree := r.degree, architecture
        inputs := r.inputs, outcome := o }
      refine ⟨{ past with number := (between.history.record user past).1 }, rfl, ?_, ?_⟩
      · exact (History.runs_record between.history user user past).trans
          (by rw [if_pos rfl, history])
      · simp only [executionDue, launched, performed, past]

/-- A session that is closed is recorded with all steps that are known, those before it among
them. -/
theorem record_of_stop {program : String} {shown : Snapshot}
    (ran : (stopSession user program).run engine = some (.ok shown, left)) :
    ∃ key s, engine.opened user program = .ok (key, s) ∧
      ∃ past : PastRun, past.mode = .debug ∧
        left.history.runs user = engine.history.runs user ++ [past] ∧
        past.architecture = s.architecture ∧ past.outcome.cycles = s.session.last.cycles := by
  rw [run_stopSession] at ran
  cases found : engine.opened user program with
  | error cause =>
    rw [found] at ran
    cases ran
  | ok given =>
    obtain ⟨key, s⟩ := given
    rw [found] at ran
    cases ran
    refine ⟨key, s, rfl, _, ?_, (History.runs_record ..).trans (if_pos rfl), ?_, ?_⟩ <;> rfl

/-- A session has moved, or has not; what its user has paid or got back is the difference in the
steps that lie behind it. -/
inductive Moves (user : String) (engine left : Engine) : Prop
  | still (sessions : left.sessions = engine.sessions)
      (credits : left.ledger.balance? user = engine.ledger.balance? user)
  | moved {key : SessionId} {s : OpenSession} {t : Session} (own : key.user = user)
      (found : engine.sessions.lookup key = some s)
      (sessions : left.sessions = (engine.withSession key { s with session := t }).sessions)
      (balanced : ∀ total, s.session.Balanced user total engine.ledger →
        t.Balanced user total left.ledger)
      (small : s.session.payer? = some user → engine.ledger.Small user → left.ledger.Small user)
      (onRun : ∀ r p first, s.session.OnRun r p first → t.OnRun r p first)

theorem moves_of_forward {program : String} {answer : Except ActionError Snapshot}
    (ran : (forward user program).run engine = some (answer, left)) :
    Moves user engine left := by
  rw [run_forward] at ran
  split at ran
  · cases ran
    exact .still rfl rfl
  · rename_i key s found
    obtain ⟨-, there, own⟩ := opened_eq_ok found
    obtain ⟨⟨outcome, ledger⟩, moved, same⟩ := Option.map_eq_some_iff.1 ran
    cases outcome with
    | error cause =>
      cases same
      have same := Session.balances?_of_forward_error moved
      exact .still rfl (congrArg (Option.map _) same)
    | ok t =>
      cases same
      have moved := Session.forward_of_run moved
      exact .moved own there rfl (fun _ balanced => balanced.forward moved)
        (fun payer small => ((Session.kept_of_closed (Metered.closed_small user)).forward
          ⟨payer, small⟩ moved).2)
        fun _ _ _ onRun => onRun.forward moved

theorem moves_of_back {program : String} {answer : Except ActionError Snapshot}
    (fits : ∀ key s, engine.opened user program = .ok (key, s) →
      s.session.RefundFits user engine.ledger)
    (ran : (back user program).run engine = some (answer, left)) : Moves user engine left := by
  rw [run_back] at ran
  split at ran
  · cases ran
    exact .still rfl rfl
  · rename_i key s found
    obtain ⟨-, there, own⟩ := opened_eq_ok found
    cases ran
    exact .moved own there rfl (fun _ balanced => balanced.back (fits key s found))
      (fun payer small => Session.back_closed (Metered.closed_small user) payer small)
      fun _ _ _ onRun => onRun.back _

theorem moves_of_resume {program : String} {breakpoints : List Nat}
    {answer : Except ActionError Snapshot}
    (ran : (resume user program breakpoints).run engine = some (answer, left)) :
    Moves user engine left := by
  rw [run_resume] at ran
  split at ran
  · cases ran
    exact .still rfl rfl
  · rename_i key s found
    obtain ⟨-, there, own⟩ := opened_eq_ok found
    obtain ⟨⟨⟨t, failure?⟩, ledger⟩, moved, same⟩ := Option.map_eq_some_iff.1 ran
    cases same
    have kept {P : Session → Ledger → Prop} (kept : Session.Kept P)
        (holds : P s.session engine.ledger) : P t ledger :=
      kept.resume (kept.marks s.session.breakpoints (engine.signalFor key) holds) moved
    exact .moved own there rfl (fun total => kept (Session.balanced_kept user total))
      (fun payer small =>
        (kept (Session.kept_of_closed (Metered.closed_small user)) ⟨payer, small⟩).2)
      fun r p first => kept (Session.OnRun.kept r p first)

end Engine

end SLanguage
