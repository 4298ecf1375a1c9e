import SLanguage.Proofs.Payment
import SLanguage.Proofs.Session.Credits

/-! Running and debugging. A new session that is resumed without breakpoints makes the
paid run of its program, and so does the plain run. A session that has come to the halt
of its program on any way stands where that run ends, with the same to pay for it. -/

namespace SLanguage

def Snapshot.outcome (s : Snapshot) : Outcome where
  result := s.result
  cycles := s.cycles
  values := s.values

namespace Metered

/-- The bill is paid if the payer has enough, or if there is no payer. -/
theorem exists_bill {payer? : Option String} {l : Ledger} {amount : Nat}
    (enough : ∀ user, payer? = some user → ∀ available, l.balance? user = some available →
      amount ≤ available) :
    ∃ after, bill payer? amount l = (.ok (), after) ∧ ∀ user, payer? = some user →
      after.balance? user = (l.balance? user).map fun balance => balance - amount := by
  cases payer? with
  | none => exact ⟨l, rfl, fun _ eq => by cases eq⟩
  | some user =>
    obtain ⟨after, paid, balance⟩ := l.exists_charge (enough user rfl)
    exact ⟨after, paid, fun other eq => by cases eq; exact balance⟩

end Metered

namespace Session

theorem outcome_current (s : Session) : s.current.outcome = s.machine.outcome s.program := by
  unfold current machine
  cases s.past <;> rfl

/-- What a session answers that has been resumed. -/
def answer (s : Session) : Option RunError → Except RunError Snapshot
  | none => .ok s.current
  | some e => .error e

/-- The machine that a resumed session has come to, or why it has stopped before. -/
def ending (s : Session) : Option RunError → Except RunError Machine
  | none => .ok s.machine
  | some e => .error e

/-- At the end of the known run, without breakpoints and with no signal set. -/
structure Clear (s : Session) (r : Run) (p : Program) : Prop where
  evaluator : s.evaluator = r.evaluator
  payer? : s.payer? = r.payer?
  program : s.program = p
  future : s.future = []
  signal : s.signal = {}
  breakpoints : s.breakpoints = ∅

namespace Clear

variable {s t : Session} {r : Run} {p : Program} {before after : Ledger}
  {failure? : Option RunError}

theorem nextStep_eq (clear : s.Clear r p) :
    s.nextStep = (s.machine.step (r.evaluator.answerAt 0) p).run := by
  rw [nextStep, clear.evaluator, clear.program]

theorem visited (clear : s.Clear r p) (v : Visit) :
    Clear { s with past := v :: s.past }.arrived r p :=
  ⟨clear.evaluator, clear.payer?, clear.program, clear.future, clear.signal, clear.breakpoints⟩

/-- What such a session does with a step: the same as a run. -/
theorem advance_succ (clear : s.Clear r p) (n : Nat) (ledger : Ledger) :
    advance (n + 1) s ledger =
      match (s.machine.step (r.evaluator.answerAt 0) p).run with
      | none => none
      | some (.error e) => some ((s, some e), ledger)
      | some (.ok none) =>
        if s.machine.isRunning then advance n { s with state := .finished } ledger
        else some (({ s with state := .finished }, none), ledger)
      | some (.ok (some v)) =>
        match Metered.bill r.payer? v.cost ledger with
        | (.error c, ledger) => some ((s, some (.credits c)), ledger)
        | (.ok (), ledger) =>
          if v.after.isRunning then advance n { s with past := v :: s.past }.arrived ledger
          else some (({ s with past := v :: s.past, state := .finished }, none), ledger) := by
  have quiet : s.signal.isRaised ledger.charges = false := by rw [clear.signal]; rfl
  have unmarked : ∀ t : Session, t.breakpoints = s.breakpoints → t.atBreakpoint = false := by
    intro t same
    rw [atBreakpoint, same, clear.breakpoints]
    cases t.machine.next? <;> simp
  rw [advance]
  simp only [quiet, Bool.false_eq_true, if_false]
  rw [run_forward_fresh clear.future, clear.nextStep_eq]
  cases (s.machine.step (r.evaluator.answerAt 0) p).run with
  | none => rfl
  | some x =>
    obtain e | v? := x
    · rfl
    · cases v? with
      | none =>
        change (if !s.machine.isRunning then _ else _) = _
        simp only [unmarked { s with state := .finished } rfl]
        cases s.machine.isRunning <;> rfl
      | some v =>
        simp only [payFor, clear.payer?]
        obtain ⟨_ | _, after⟩ := Metered.bill r.payer? v.cost ledger
        · rfl
        · change (if !v.after.isRunning then _ else _) = _
          simp only [unmarked { s with past := v :: s.past }.arrived rfl]
          cases v.after.isRunning <;> rfl

/-- Where the session stops, the paid run ends. It is halted unless it has failed. -/
theorem paid_of_advance (clear : s.Clear r p) (assembled : p.Assembled)
    (inRange : s.machine.InRange p) {n : Nat}
    (ran : advance n s before = some ((t, failure?), after)) :
    Paid (r.evaluator.answerAt 0) r.payer? p s.machine before (t.ending failure?) after ∧
      t.program = p ∧ (failure? = none → t.machine.isRunning = false) := by
  induction n generalizing s before with
  | zero => cases ran
  | succ n ih =>
    rw [clear.advance_succ] at ran
    split at ran
    · cases ran
    · rename_i failed
      cases ran
      exact ⟨.failed failed, clear.program, fun eq => by cases eq⟩
    · rename_i still
      have stopped := inRange.halted still
      rw [if_neg (by simp [stopped])] at ran
      cases ran
      exact ⟨.halted stopped, clear.program, fun _ => stopped⟩
    · rename_i v step
      split at ran
      · rename_i bill
        cases ran
        exact ⟨.refused step bill, clear.program, fun eq => by cases eq⟩
      · rename_i bill
        split at ran
        · obtain ⟨rest, others⟩ := ih (clear.visited v) (.step assembled step) ran
          exact ⟨.paid step bill rest, others⟩
        · rename_i stopped
          cases ran
          have stopped : v.after.isRunning = false := by simpa using stopped
          exact ⟨.paid step bill (.halted stopped), clear.program, fun _ => stopped⟩

/-- With steps enough, the session comes to the end of the paid run. -/
theorem advance_of_paid {answering : Answering} {payer? : Option String} {m : Machine}
    {outcome : Except RunError Machine} (ended : Paid answering payer? p m before outcome after) :
    ∃ enough, ∀ n, enough ≤ n → ∀ (r : Run) (s : Session), s.Clear r p →
      s.machine = m → r.payer? = payer? → answering.Extends (r.evaluator.answerAt 0) →
        ∃ t failure?, advance (n + 1) s before = some ((t, failure?), after) ∧
          t.program = p ∧ t.ending failure? = outcome := by
  induction ended with
  | halted stopped =>
    refine ⟨0, fun n _ r s clear at_m _ _ => ?_⟩
    subst at_m
    refine ⟨{ s with state := .finished }, none, ?_, clear.program, rfl⟩
    rw [clear.advance_succ, Paid.step_of_not_running stopped]
    exact if_neg (by simp [stopped])
  | failed step =>
    refine ⟨0, fun n _ r s clear at_m _ more => ?_⟩
    refine ⟨s, some _, ?_, clear.program, rfl⟩
    rw [clear.advance_succ, at_m, more.step step]
  | refused step bill =>
    refine ⟨0, fun n _ r s clear at_m payer more => ?_⟩
    refine ⟨s, some _, ?_, clear.program, rfl⟩
    rw [clear.advance_succ, at_m, more.step step, payer]
    simp only [bill]
  | @paid m v _ _ _ outcome step bill rest ih =>
    obtain ⟨enough, ih⟩ := ih
    refine ⟨enough + 1, fun n le r s clear at_m payer more => ?_⟩
    obtain ⟨n, rfl⟩ : ∃ k, n = k + 1 := ⟨n - 1, by omega⟩
    rw [clear.advance_succ, at_m, more.step step, payer]
    simp only [bill]
    cases running : v.after.isRunning with
    | true => exact ih n (by omega) r _ (clear.visited v) rfl payer more
    | false =>
      obtain ⟨rfl, rfl⟩ := rest.of_not_running running
      exact ⟨_, none, rfl, clear.program, rfl⟩

end Clear

theorem clear_start {r : Run} (signal : r.signal = {}) (p : Program) (inputs : List Int64) :
    Clear { start r p inputs with breakpoints := .ofList ([] : List Nat) } r p :=
  ⟨rfl, rfl, rfl, rfl, signal, rfl⟩

/-- A new session that is resumed without breakpoints answers this. Machines may take as
many steps as they need. -/
def Resumes (r : Run) (p : Program) (inputs : List Int64) (before : Ledger)
    (answer : Except RunError Snapshot) (after : Ledger) : Prop :=
  ∃ stepLimit s failure?,
    (start (r.within stepLimit) p inputs).resume [] before = some ((s, failure?), after) ∧
      answer = s.answer failure?

section Resumes

variable {r : Run} {p : Program} {inputs : List Int64} {before after : Ledger}

theorem resume_of_advance {s t : Session} {failure? : Option RunError} {breakpoints : List Nat}
    (ran : advance s.evaluator.stepLimit { s with breakpoints := .ofList breakpoints } before =
      some ((t, failure?), after)) :
    s.resume breakpoints before =
      some (({ t with signal := t.signal.clear after.charges }, failure?), after) := by
  change (advance s.evaluator.stepLimit _ before).bind _ = _
  rw [ran]
  rfl

theorem answer_map_outcome (s : Session) (failure? : Option RunError) :
    (s.answer failure?).map Snapshot.outcome =
      (s.ending failure?).map (Machine.outcome s.program) := by
  cases failure? with
  | none => exact congrArg Except.ok s.outcome_current
  | some e => rfl

/-- A resumed session ends as the paid run does. -/
theorem Resumes.settles (signal : r.signal = {}) (assembled : p.Assembled)
    {answer : Except RunError Snapshot} (resumed : Resumes r p inputs before answer after) :
    (∃ x, r.Settles p (.ofInputs p inputs) before x after ∧
      answer.map Snapshot.outcome = x.map (Machine.outcome p)) ∧
    ∀ shown, answer = .ok shown → shown.isRunning = false := by
  obtain ⟨limit, s, failure?, resumed, rfl⟩ := resumed
  obtain ⟨t, ran, rfl⟩ := resume_eq_some resumed
  have clear := clear_start (r := r.within limit) signal p inputs
  obtain ⟨paid, rfl, stopped⟩ :=
    clear.paid_of_advance assembled (Machine.inRange_start _ _) ran
  refine ⟨⟨_, ⟨limit, paid⟩, answer_map_outcome _ _⟩, fun shown eq => ?_⟩
  cases failure? with
  | none =>
    cases eq
    exact (isRunning_current t).trans (stopped rfl)
  | some e => cases eq

theorem exists_resumes (signal : r.signal = {}) {x : Except RunError Machine}
    (ended : r.Settles p (.ofInputs p inputs) before x after) :
    ∃ answer, Resumes r p inputs before answer after ∧
      answer.map Snapshot.outcome = x.map (Machine.outcome p) := by
  obtain ⟨limit, paid⟩ := ended
  obtain ⟨enough, advances⟩ := Clear.advance_of_paid paid
  have clear := clear_start (r := r.within (max limit enough + 1)) signal p inputs
  obtain ⟨t, failure?, ran, rfl, rfl⟩ := advances (max limit enough) (Nat.le_max_right ..) _ _
    clear rfl rfl (r.extends_of_le (by omega))
  exact ⟨_, ⟨_, _, failure?, resume_of_advance ran, rfl⟩, answer_map_outcome _ failure?⟩

end Resumes

/-! Any way to the halt. Moves follow each other on one ledger. -/

/-- A session and a ledger that moves lead to, failing ones among them, if nobody else
touches the ledger. -/
inductive Detour (start : Session) (initial : Ledger) : Session → Ledger → Prop
  | begin : Detour start initial start initial
  | move {s t : Session} {before after : Ledger} {m : Move} {failure? : Option RunError} :
    Detour start initial s before → s.perform m before = some ((t, failure?), after) →
    Detour start initial t after

namespace Detour

variable {start s : Session} {initial ledger : Ledger} {user : String} {total : Nat}

theorem reaches (detour : Detour start initial s ledger) : start.Reaches s := by
  induction detour with
  | begin => exact .refl
  | move _ moved ih => exact .move ih moved

/-- What comes back was paid before, so no refund reaches the limit. -/
theorem balanced (fits : total ≤ Amount.largest) (funds : Balanced user total start initial)
    (detour : Detour start initial s ledger) : Balanced user total s ledger := by
  induction detour with
  | begin => exact funds
  | @move s t before after m _ _ moved ih =>
    refine (balanced_kept user _).perform ih (fun _ => ih.back fun v left last balance => ?_) moved
    obtain ⟨-, left', balance', sum⟩ := ih
    have same : left = left' := Option.some.inj (balance.symm.trans balance')
    have within : v.cost ≤ s.spent := by
      obtain ⟨rest, past⟩ := List.head?_eq_some_iff.1 last
      simp [spent, past]
    omega

end Detour

namespace OnRun

variable {r : Run} {p : Program} {first : Machine} {s : Session}

/-- The step behind a session is a step from the session before it. -/
theorem exists_before (h : s.OnRun r p first) {v : Visit} {rest : List Visit}
    (past : s.past = v :: rest) :
    ∃ t : Session, t.OnRun r p first ∧ t.past = rest ∧
      (t.machine.step (r.evaluator.answerAt 0) p).run = some (.ok (some v)) := by
  let t : Session := { s with past := rest, future := v :: s.future }
  have same : t.history = s.history := by simp [t, Session.history, past]
  have there : t.OnRun r p first :=
    ⟨h.evaluator, h.payer?, h.program, h.origin, same ▸ h.history⟩
  have known : t.history[rest.length]? = some v := by simp [t, Session.history]
  have lt : rest.length < t.history.length := (List.getElem?_eq_some_iff.1 known).1
  refine ⟨t, there, rfl, Machine.visit?_eq_some_iff.1 ?_⟩
  rw [← there.nth?_position, ← there.history _ lt, known]

theorem cycles_eq (h : s.OnRun r p first) (unpaid : first.cycles = 0) :
    s.machine.cycles = min s.spent Amount.largest := by
  induction past : s.past generalizing s with
  | nil =>
    have here : s.machine = first := by
      rw [machine, past]
      exact h.origin
    rw [here, unpaid, spent, past]
    rfl
  | cons v rest ih =>
    obtain ⟨t, there, rfl, step⟩ := h.exists_before past
    have here : s.machine = v.after := by rw [machine, past]
    have cost : s.spent = v.cost + t.spent := by simp [spent, past]
    rw [here, Machine.cycles_of_step step, ih there rfl, cost, Amount.sum]
    omega

/-- The last step that is known shows what all known steps cost. -/
theorem cycles_last (h : s.OnRun r p first) (unpaid : first.cycles = 0)
    (exact : (s.history.map Visit.cost).sum < UInt64.size) :
    s.last.cycles.toNat = (s.history.map Visit.cost).sum := by
  let t : Session := { s with past := s.history.reverse, future := [] }
  have same : t.history = s.history := by simp [t, Session.history]
  have there : t.OnRun r p first :=
    ⟨h.evaluator, h.payer?, h.program, h.origin, same ▸ h.history⟩
  have cost : t.spent = (s.history.map Visit.cost).sum := by
    simp only [spent, t, List.map_reverse, List.sum_reverse]
  have cycles : s.last.cycles = UInt64.ofNat t.machine.cycles := by
    have latest : s.history.getLast? = t.past.head? := List.head?_reverse.symm
    unfold last machine
    rw [latest]
    cases t.past <;> rfl
  have bound : (s.history.map Visit.cost).sum ≤ Amount.largest := Nat.le_sub_one_of_lt exact
  rw [cycles, there.cycles_eq unpaid, cost, Nat.min_eq_left bound,
    UInt64.toNat_ofNat_of_lt' exact]

/-- The steps behind a session can be paid one after the other, as long as they do not cost
more in all than there is. -/
theorem paidSteps (h : s.OnRun r p first) {initial : Ledger}
    (enough : ∀ user, r.payer? = some user →
      ∀ balance, initial.balance? user = some balance → s.spent ≤ balance) :
    ∃ after, PaidSteps (r.evaluator.answerAt 0) r.payer? p first initial s.machine after ∧
      ∀ user, r.payer? = some user →
        after.balance? user = (initial.balance? user).map fun balance => balance - s.spent := by
  induction past : s.past generalizing s with
  | nil =>
    have here : s.machine = first := by
      rw [machine, past]
      exact h.origin
    have nothing : s.spent = 0 := by simp [spent, past]
    refine ⟨initial, here ▸ .refl, fun user _ => ?_⟩
    simp [nothing]
  | cons v rest ih =>
    obtain ⟨t, there, rfl, step⟩ := h.exists_before past
    have here : s.machine = v.after := by rw [machine, past]
    have cost : s.spent = v.cost + t.spent := by simp [spent, past]
    obtain ⟨between, steps, left⟩ := ih there (fun user payer balance available => by
      have := enough user payer balance available
      omega) rfl
    have covered : ∀ user, r.payer? = some user →
        ∀ available, between.balance? user = some available → v.cost ≤ available := by
      intro user payer available balance
      rw [left user payer, Option.map_eq_some_iff] at balance
      obtain ⟨initially, balance, rfl⟩ := balance
      have := enough user payer initially balance
      omega
    obtain ⟨after, bill, rest⟩ := Metered.exists_bill covered
    refine ⟨after, here ▸ steps.snoc step bill, fun user payer => ?_⟩
    rw [rest user payer, left user payer, Option.map_map, cost]
    congr 1
    funext balance
    simp only [Function.comp_apply]
    omega

end OnRun

namespace Detour

variable {r : Run} {p : Program} {inputs : List Int64} {s : Session} {initial ledger : Ledger}

theorem charged (detour : Detour (start r p inputs) initial s ledger) {user : String}
    (payer : r.payer? = some user) {balance : Nat}
    (available : initial.balance? user = some balance) (fits : balance ≤ Amount.largest) :
    ∃ left, ledger.balance? user = some left ∧ left + s.spent = balance :=
  (detour.balanced fits ⟨payer, balance, available, rfl⟩).2

/-- Whatever moves led to the halt, the paid run leads there, and is charged as much. -/
theorem settles (detour : Detour (start r p inputs) initial s ledger)
    (stopped : s.current.isRunning = false)
    (fits : ∀ user, r.payer? = some user → ∀ balance, initial.balance? user = some balance →
      balance ≤ Amount.largest) :
    s.future = [] ∧ ∃ after, r.Settles p (.ofInputs p inputs) initial (.ok s.machine) after ∧
      ∀ user, r.payer? = some user → ∀ balance, initial.balance? user = some balance →
        ∃ left, ledger.balance? user = some left ∧ after.balance? user = some left ∧
          left + s.current.cycles.toNat = balance := by
  obtain ⟨onRun, -⟩ := detour.reaches.onRun
  have halted : s.machine.isRunning = false := (isRunning_current s).symm.trans stopped
  constructor
  · cases future : s.future with
    | nil => rfl
    | cons v rest => cases halted.symm.trans (onRun.isRunning_of_future future)
  · obtain ⟨after, steps, rest⟩ := onRun.paidSteps fun user payer balance available => by
      obtain ⟨left, -, sum⟩ := detour.charged payer available (fits user payer balance available)
      omega
    refine ⟨after, ⟨r.evaluator.stepLimit, steps.paid (.halted halted)⟩, ?_⟩
    intro user payer balance available
    have bounded := fits user payer balance available
    obtain ⟨left, here, sum⟩ := detour.charged payer available bounded
    refine ⟨left, here, ?_, ?_⟩
    · rw [rest user payer, available, Option.map_some]
      congr 1
      omega
    · have cycles : s.current.cycles = UInt64.ofNat s.machine.cycles := by
        unfold current machine
        cases s.past <;> rfl
      have small : s.machine.cycles = s.spent := by
        rw [onRun.cycles_eq rfl]
        omega
      have largest : Amount.largest < UInt64.size := by decide
      have room : s.spent < UInt64.size := by omega
      rw [cycles, small, UInt64.toNat_ofNat_of_lt' room]
      exact sum

end Detour

section Agreement

variable {r : Run} (signal : r.signal = {}) {p : Program} (assembled : p.Assembled)
  {inputs : List Int64} {before after : Ledger}

include signal assembled

theorem ends_iff_resumes {result : Except RunError Outcome} :
    r.Ends p inputs before result after ↔
      ∃ answer, Resumes r p inputs before answer after ∧
        answer.map Snapshot.outcome = result := by
  rw [Run.ends_iff_settles signal assembled]
  constructor
  · rintro ⟨x, settled, rfl⟩
    exact exists_resumes signal settled
  · rintro ⟨answer, resumed, rfl⟩
    exact (resumed.settles signal assembled).1

theorem ends_ok_iff {outcome : Outcome} :
    r.Ends p inputs before (.ok outcome) after ↔
      ∃ shown, Resumes r p inputs before (.ok shown) after ∧ shown.outcome = outcome := by
  rw [ends_iff_resumes signal assembled]
  constructor
  · rintro ⟨answer, resumed, eq⟩
    cases answer with
    | error e => cases eq
    | ok shown => exact ⟨shown, resumed, Except.ok.inj eq⟩
  · rintro ⟨shown, resumed, rfl⟩
    exact ⟨.ok shown, resumed, rfl⟩

theorem ends_error_iff {e : RunError} :
    r.Ends p inputs before (.error e) after ↔ Resumes r p inputs before (.error e) after := by
  rw [ends_iff_resumes signal assembled]
  constructor
  · rintro ⟨answer, resumed, eq⟩
    cases answer with
    | error e' =>
      cases eq
      exact resumed
    | ok shown => cases eq
  · exact fun resumed => ⟨.error e, resumed, rfl⟩

/-- The one has no end if the other has none. -/
theorem not_ends_iff :
    (∀ result after, ¬ r.Ends p inputs before result after) ↔
      ∀ answer after, ¬ Resumes r p inputs before answer after := by
  constructor
  · intro never answer after resumed
    exact never _ _ ((ends_iff_resumes signal assembled).2 ⟨answer, resumed, rfl⟩)
  · intro never result after ran
    obtain ⟨answer, resumed, -⟩ := (ends_iff_resumes signal assembled).1 ran
    exact never _ _ resumed

end Agreement

/-- Running and debugging are the same. A run ends as a new session does that is resumed
without breakpoints: halted with the same outcome, or with the same error, and with the same
ledger, and the one goes on forever if the other does. A session that has come to the halt of
its program on whatever way shows what the run ends with, and has charged what it charges. -/
theorem runs_as_debugged {r : Run} (uncancelled : r.signal = {}) {p : Program}
    (assembled : p.Assembled) (inputs : List Int64) (initial : Ledger) :
    (∀ outcome after, r.Ends p inputs initial (.ok outcome) after ↔
      ∃ shown, Resumes r p inputs initial (.ok shown) after ∧ shown.outcome = outcome) ∧
    (∀ e after, r.Ends p inputs initial (.error e) after ↔
      Resumes r p inputs initial (.error e) after) ∧
    (∀ shown after, Resumes r p inputs initial (.ok shown) after → shown.isRunning = false) ∧
    (∀ result result' after after', r.Ends p inputs initial result after →
      r.Ends p inputs initial result' after' → result = result' ∧ after = after') ∧
    ((∀ result after, ¬ r.Ends p inputs initial result after) ↔
      ∀ answer after, ¬ Resumes r p inputs initial answer after) ∧
    ∀ s ledger, Detour (start r p inputs) initial s ledger → s.current.isRunning = false →
      (∀ user, r.payer? = some user → ∀ balance, initial.balance? user = some balance →
        balance ≤ Amount.largest) →
      s.future = [] ∧ ∃ after, r.Ends p inputs initial (.ok s.current.outcome) after ∧
        ∀ user, r.payer? = some user → ∀ balance, initial.balance? user = some balance →
          ∃ left, ledger.balance? user = some left ∧ after.balance? user = some left ∧
            left + s.current.cycles.toNat = balance := by
  refine ⟨fun _ _ => ends_ok_iff uncancelled assembled,
    fun _ _ => ends_error_iff uncancelled assembled,
    fun shown _ ran => (ran.settles uncancelled assembled).2 shown rfl,
    fun _ _ _ _ one other => Run.Ends.unique uncancelled assembled one other,
    not_ends_iff uncancelled assembled, ?_⟩
  intro s ledger detour stopped fits
  obtain ⟨onRun, -⟩ := detour.reaches.onRun
  obtain ⟨frontier, after, settled, paid⟩ := detour.settles stopped fits
  refine ⟨frontier, after, (Run.ends_iff_settles uncancelled assembled).2 ⟨_, settled, ?_⟩, paid⟩
  rw [outcome_current, onRun.program]
  rfl

/-- A session on `moving` that stops at a breakpoint, goes back and then on to the end. -/
theorem runs_as_debugged_moving :
    let r : Run := { evaluator := { functions := ∅, stepLimit := 10 }, payer? := some "u" }
    let initial := Ledger.empty.deposit "u" 20
    ∃ s ledger after, Detour (start r moving [2]) initial s ledger ∧ s.current.result = 2 ∧
      r.Ends moving [2] initial (.ok s.current.outcome) after ∧
      after.balance? "u" = ledger.balance? "u" := by
  intro r initial
  have available : initial.balance? "u" = some 20 := by decide +kernel
  have moves : (((start r moving [2]).perform (.resume [2]) initial).bind fun first =>
      (first.1.1.perform .back first.2).bind fun second =>
        (second.1.1.perform (.resume []) second.2).map fun third =>
          (third.1.1.current.isRunning, third.1.1.current.result)) = some (false, 2) := by
    decide +kernel
  obtain ⟨⟨⟨s₁, e₁⟩, l₁⟩, there, moves⟩ := Option.bind_eq_some_iff.1 moves
  obtain ⟨⟨⟨s₂, e₂⟩, l₂⟩, back, moves⟩ := Option.bind_eq_some_iff.1 moves
  obtain ⟨⟨⟨s₃, e₃⟩, l₃⟩, onward, shown⟩ := Option.map_eq_some_iff.1 moves
  obtain ⟨stopped, result⟩ := Prod.mk.inj shown
  have detour : Detour (start r moving [2]) initial s₃ l₃ :=
    .move (.move (.move .begin there) back) onward
  obtain ⟨-, -, -, -, -, halts⟩ := runs_as_debugged (r := r) rfl assembled_moving [2] initial
  obtain ⟨-, after, ended, charged⟩ := halts s₃ l₃ detour stopped fun user payer balance eq => by
    cases payer
    cases available.symm.trans eq
    decide
  obtain ⟨left, here, there, -⟩ := charged "u" rfl 20 available
  exact ⟨s₃, l₃, after, detour, result, ended, there.trans here.symm⟩

end Session

end SLanguage
