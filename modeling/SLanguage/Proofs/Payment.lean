import SLanguage.Proofs.Calls.Answers
import SLanguage.Proofs.Metering

/-! Paid runs without a bound on their steps. A machine pays its way to a halt, to a step
that fails or to a charge that is refused. Every way of running a program comes to this
relation, and since a step has one result at most, so has the run. -/

namespace SLanguage

/-- Every call that the first answers the second answers alike. -/
def Answering.Extends (answering answering' : Answering) : Prop :=
  ∀ c s, Attempt.Agrees (· = none) Eq (answering c s) (answering' c s)

theorem Answering.Extends.step {answering answering' : Answering}
    (more : answering.Extends answering') {p : Program} {m : Machine}
    {x : Except RunError (Option Visit)} (step : (m.step answering p).run = some x) :
    (m.step answering' p).run = some x :=
  (Machine.step_agrees fun _ _ c _ _ _ => more c _).run_eq step

/-- From the machine and the ledger on, the paid run ends like this. -/
inductive Paid (answering : Answering) (payer? : Option String) (p : Program) :
    Machine → Ledger → Except RunError Machine → Ledger → Prop where
  | halted {m : Machine} {ledger : Ledger} (stopped : m.isRunning = false) :
    Paid answering payer? p m ledger (.ok m) ledger
  | failed {m : Machine} {ledger : Ledger} {e : RunError}
      (step : (m.step answering p).run = some (.error e)) :
    Paid answering payer? p m ledger (.error e) ledger
  | refused {m : Machine} {v : Visit} {before after : Ledger} {c : Shortfall}
      (step : (m.step answering p).run = some (.ok (some v)))
      (bill : Metered.bill payer? v.cost before = (.error c, after)) :
    Paid answering payer? p m before (.error (.credits c)) after
  | paid {m : Machine} {v : Visit} {before between after : Ledger} {r : Except RunError Machine}
      (step : (m.step answering p).run = some (.ok (some v)))
      (bill : Metered.bill payer? v.cost before = (.ok (), between))
      (rest : Paid answering payer? p v.after between r after) :
    Paid answering payer? p m before r after

namespace Paid

variable {answering answering' : Answering} {payer? : Option String} {p : Program}
  {m : Machine} {before after after' : Ledger} {r r' : Except RunError Machine}

theorem step_of_not_running (stopped : m.isRunning = false) :
    (m.step answering p).run = some (.ok none) := by
  rw [Machine.step_of_halted (by simpa [Machine.isRunning] using stopped)]
  rfl

theorem of_not_running (stopped : m.isRunning = false)
    (ended : Paid answering payer? p m before r after) : r = .ok m ∧ after = before := by
  have still : (m.step answering p).run = some (.ok none) := step_of_not_running stopped
  cases ended with
  | halted => exact ⟨rfl, rfl⟩
  | failed step => cases still.symm.trans step
  | refused step => cases still.symm.trans step
  | paid step => cases still.symm.trans step

/-- A run that is paid for ends in one way. -/
theorem unique (first : Paid answering payer? p m before r after)
    (second : Paid answering payer? p m before r' after') : r = r' ∧ after = after' := by
  induction first with
  | halted stopped =>
    obtain ⟨rfl, rfl⟩ := second.of_not_running stopped
    exact ⟨rfl, rfl⟩
  | failed step =>
    cases second with
    | halted stopped => cases (step_of_not_running stopped).symm.trans step
    | failed step' =>
      cases step.symm.trans step'
      exact ⟨rfl, rfl⟩
    | refused step' => cases step.symm.trans step'
    | paid step' => cases step.symm.trans step'
  | refused step bill =>
    cases second with
    | halted stopped => cases (step_of_not_running stopped).symm.trans step
    | failed step' => cases step.symm.trans step'
    | refused step' bill' =>
      cases step.symm.trans step'
      cases bill.symm.trans bill'
      exact ⟨rfl, rfl⟩
    | paid step' bill' =>
      cases step.symm.trans step'
      cases bill.symm.trans bill'
  | paid step bill _ ih =>
    cases second with
    | halted stopped => cases (step_of_not_running stopped).symm.trans step
    | failed step' => cases step.symm.trans step'
    | refused step' bill' =>
      cases step.symm.trans step'
      cases bill.symm.trans bill'
    | paid step' bill' rest' =>
      cases step.symm.trans step'
      cases bill.symm.trans bill'
      exact ih rest'

/-- Calls that may take more steps only help runs that have not ended. -/
theorem of_extends (more : answering.Extends answering')
    (ended : Paid answering payer? p m before r after) :
    Paid answering' payer? p m before r after := by
  induction ended with
  | halted stopped => exact .halted stopped
  | failed step => exact .failed (more.step step)
  | refused step bill => exact .refused (more.step step) bill
  | paid step bill _ ih => exact .paid (more.step step) bill ih

end Paid

/-- Paid steps lead from a machine and a ledger to others. -/
inductive PaidSteps (answering : Answering) (payer? : Option String) (p : Program)
    (m : Machine) (before : Ledger) : Machine → Ledger → Prop where
  | refl : PaidSteps answering payer? p m before m before
  | snoc {last : Machine} {v : Visit} {between after : Ledger}
      (steps : PaidSteps answering payer? p m before last between)
      (step : (last.step answering p).run = some (.ok (some v)))
      (bill : Metered.bill payer? v.cost between = (.ok (), after)) :
    PaidSteps answering payer? p m before v.after after

theorem PaidSteps.paid {answering : Answering} {payer? : Option String} {p : Program}
    {m last : Machine} {before between after : Ledger} {r : Except RunError Machine}
    (steps : PaidSteps answering payer? p m before last between)
    (ended : Paid answering payer? p last between r after) :
    Paid answering payer? p m before r after := by
  induction steps generalizing r after with
  | refl => exact ended
  | snoc _ step bill ih => exact ih (.paid step bill ended)

namespace Run

variable {r : Run} {p : Program} {m : Machine} {before after : Ledger}

/-- The run with so many steps for every machine. -/
def within (r : Run) (stepLimit : Nat) : Run :=
  { r with evaluator := { r.evaluator with stepLimit } }

/-- What a run does with a step, if nothing stops it before. -/
theorem run_toEnd_of_quiet {ledger : Ledger} (quiet : r.signal.isRaised ledger.charges = false)
    (n : Nat) (m : Machine) :
    (r.toEnd p (n + 1) m).run ledger =
      match (m.step (r.evaluator.answerAt 0) p).run with
      | none => none
      | some (.error e) => some (.error e, ledger)
      | some (.ok none) => some (.ok m, ledger)
      | some (.ok (some v)) =>
        match Metered.bill r.payer? v.cost ledger with
        | (.error c, ledger) => some (.error (.credits c), ledger)
        | (.ok (), ledger) => (r.toEnd p n v.after).run ledger := by
  cases running : m.isRunning with
  | false =>
    rw [toEnd, running, Paid.step_of_not_running running]
    rfl
  | true =>
    have counted : (Metered.charges : Metered RunError Nat).run ledger =
      some (.ok ledger.charges, ledger) := rfl
    rw [toEnd, running]
    simp only [Bool.not_true, Bool.false_eq_true, if_false]
    rw [Keeping.run_bind, counted]
    simp only [quiet, Bool.false_eq_true, if_false]
    rw [Keeping.run_bind, Metered.run_ofAttempt]
    cases (m.step (r.evaluator.answerAt 0) p).run with
    | none => rfl
    | some x =>
      obtain e | v? := x
      · rfl
      · cases v? with
        | none => rfl
        | some v =>
          simp only [Option.map_some]
          rw [Keeping.run_bind, Metered.run_adapt, Metered.run_pay]
          obtain ⟨paid, after⟩ := Metered.bill r.payer? v.cost ledger
          cases paid <;> rfl

theorem run_toEnd_succ (signal : r.signal = {}) (n : Nat) (m : Machine) (ledger : Ledger) :
    (r.toEnd p (n + 1) m).run ledger =
      match (m.step (r.evaluator.answerAt 0) p).run with
      | none => none
      | some (.error e) => some (.error e, ledger)
      | some (.ok none) => some (.ok m, ledger)
      | some (.ok (some v)) =>
        match Metered.bill r.payer? v.cost ledger with
        | (.error c, ledger) => some (.error (.credits c), ledger)
        | (.ok (), ledger) => (r.toEnd p n v.after).run ledger :=
  run_toEnd_of_quiet (by simp [signal, Signal.isRaised]) n m

theorem paid_of_toEnd (signal : r.signal = {}) (assembled : p.Assembled)
    (inRange : m.InRange p) {n : Nat} {outcome : Except RunError Machine}
    (ran : (r.toEnd p n m).run before = some (outcome, after)) :
    Paid (r.evaluator.answerAt 0) r.payer? p m before outcome after := by
  induction n generalizing m before with
  | zero => cases ran
  | succ n ih =>
    rw [run_toEnd_succ signal] at ran
    split at ran
    · cases ran
    · rename_i failed
      cases ran
      exact .failed failed
    · rename_i still
      cases ran
      exact .halted (inRange.halted still)
    · rename_i v step
      split at ran
      · rename_i bill
        cases ran
        exact .refused step bill
      · rename_i bill
        exact .paid step bill (ih (.step assembled step) ran)

/-- With steps enough, the loop comes to the end of the paid run. -/
theorem toEnd_of_paid {answering : Answering} {payer? : Option String}
    {outcome : Except RunError Machine} (ended : Paid answering payer? p m before outcome after) :
    ∃ enough, ∀ n, enough ≤ n → ∀ r : Run, r.signal = {} → r.payer? = payer? →
      answering.Extends (r.evaluator.answerAt 0) →
        (r.toEnd p (n + 1) m).run before = some (outcome, after) := by
  induction ended with
  | halted stopped =>
    refine ⟨0, fun n _ r signal _ _ => ?_⟩
    rw [run_toEnd_succ signal, Paid.step_of_not_running stopped]
  | failed step =>
    refine ⟨0, fun n _ r signal _ more => ?_⟩
    rw [run_toEnd_succ signal, more.step step]
  | refused step bill =>
    refine ⟨0, fun n _ r signal payer more => ?_⟩
    rw [run_toEnd_succ signal, more.step step, payer]
    simp only [bill]
  | paid step bill _ ih =>
    obtain ⟨enough, ih⟩ := ih
    refine ⟨enough + 1, fun n le r signal payer more => ?_⟩
    obtain ⟨n, rfl⟩ : ∃ k, n = k + 1 := ⟨n - 1, by omega⟩
    rw [run_toEnd_succ signal, more.step step, payer]
    simp only [bill]
    exact ih n (by omega) r signal payer more

/-- The paid run of a machine ends like this, with as many steps as its calls need. -/
def Settles (r : Run) (p : Program) (m : Machine) (before : Ledger)
    (outcome : Except RunError Machine) (after : Ledger) : Prop :=
  ∃ stepLimit, Paid ((r.within stepLimit).evaluator.answerAt 0) r.payer? p m before outcome after

theorem extends_of_le (r : Run) {limit limit' : Nat} (le : limit ≤ limit') :
    ((r.within limit).evaluator.answerAt 0).Extends ((r.within limit').evaluator.answerAt 0) :=
  fun c s => Evaluator.answer_agrees_of_le (r.within limit).evaluator le _ c s

theorem Settles.unique {first second : Except RunError Machine} {after' : Ledger}
    (one : r.Settles p m before first after) (other : r.Settles p m before second after') :
    first = second ∧ after = after' := by
  obtain ⟨limit, one⟩ := one
  obtain ⟨limit', other⟩ := other
  exact (one.of_extends (extends_of_le r (Nat.le_max_left limit limit'))).unique
    (other.of_extends (extends_of_le r (Nat.le_max_right limit limit')))

/-- The run of a program on inputs ends like this. Machines may take as many steps as they
need. -/
def Ends (r : Run) (p : Program) (inputs : List Int64) (before : Ledger)
    (outcome : Except RunError Outcome) (after : Ledger) : Prop :=
  ∃ stepLimit, ((r.within stepLimit).perform p inputs).run before = some (outcome, after)

theorem run_perform (r : Run) (p : Program) (inputs : List Int64) (ledger : Ledger) :
    (r.perform p inputs).run ledger =
      ((r.toEnd p r.evaluator.stepLimit (.ofInputs p inputs)).run ledger).map
        fun (outcome, ledger) => (outcome.map (Machine.outcome p), ledger) := by
  rw [perform, Keeping.run_bind]
  cases (r.toEnd p r.evaluator.stepLimit (.ofInputs p inputs)).run ledger with
  | none => rfl
  | some x =>
    obtain ⟨e | m, after⟩ := x <;> rfl

theorem ends_iff_settles (signal : r.signal = {}) (assembled : p.Assembled)
    {inputs : List Int64} {outcome : Except RunError Outcome} :
    r.Ends p inputs before outcome after ↔
      ∃ x, r.Settles p (.ofInputs p inputs) before x after ∧
        outcome = x.map (Machine.outcome p) := by
  constructor
  · rintro ⟨limit, ran⟩
    rw [run_perform] at ran
    obtain ⟨⟨x, ledger⟩, ran, eq⟩ := Option.map_eq_some_iff.1 ran
    cases eq
    have inRange : (Machine.ofInputs p inputs).InRange p := Machine.inRange_start _ _
    exact ⟨x, ⟨limit, paid_of_toEnd (r := r.within limit) signal assembled inRange ran⟩, rfl⟩
  · rintro ⟨x, ⟨limit, paid⟩, rfl⟩
    obtain ⟨enough, ran⟩ := toEnd_of_paid paid
    refine ⟨max limit enough + 1, ?_⟩
    rw [run_perform]
    have ended := ran (max limit enough) (Nat.le_max_right ..)
      (r.within (max limit enough + 1)) signal rfl (extends_of_le r (by omega))
    change ((Run.toEnd _ p (max limit enough + 1) _).run before).map _ = _
    rw [ended]
    rfl

theorem Ends.unique (signal : r.signal = {}) (assembled : p.Assembled) {inputs : List Int64}
    {first second : Except RunError Outcome} {after' : Ledger}
    (one : r.Ends p inputs before first after) (other : r.Ends p inputs before second after') :
    first = second ∧ after = after' := by
  obtain ⟨x, settled, rfl⟩ := (ends_iff_settles signal assembled).1 one
  obtain ⟨y, settled', rfl⟩ := (ends_iff_settles signal assembled).1 other
  obtain ⟨rfl, rfl⟩ := settled.unique settled'
  exact ⟨rfl, rfl⟩

end Run

end SLanguage
