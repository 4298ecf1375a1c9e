import SLanguage.Proofs.Expansion.Degrees
import SLanguage.Proofs.Payment.Budget

/-! Runs that must end. Where no calls are made, an instruction that costs nothing falls
through to the next one. So a run has paid before it goes back in its program, and as often as
it has paid it can go through the whole program, and then once more. -/

namespace SLanguage

/-- No instruction makes a call. -/
def Program.CallFree (p : Program) : Prop :=
  ∀ i ∈ p.instructions.toList, i.op.call? = none

instance (p : Program) : Decidable p.CallFree :=
  inferInstanceAs (Decidable (∀ i ∈ p.instructions.toList, i.op.call? = none))

namespace Instruction

variable {i : Instruction}

/-- What is free of charge does not jump. -/
theorem jump_reaction_of_free (free : i.baseCycles = 0) (s : Store) (y : Yield) :
    (i.reaction s y).jump = .empty := by
  unfold baseCycles kind at free
  unfold reaction
  cases op : i.op <;> rw [op] at free <;> first | rfl | cases free

theorem callCycles_reaction (i : Instruction) (s : Store) (value : Nat) :
    (i.reaction s ⟨value, 0⟩).callCycles = 0 := by
  unfold reaction
  cases i.op <;> rfl

theorem baseCycles_le (i : Instruction) : i.baseCycles ≤ Amount.largest := by
  have few : i.baseCycles ≤ 6 := by
    unfold baseCycles
    cases i.kind <;> decide
  exact Nat.le_trans few (by decide)

end Instruction

namespace Machine

variable {p : Program} {m : Machine}

/-- The number of instructions from the next one to the end of the program. -/
def ahead (p : Program) (m : Machine) : Nat :=
  (m.next?.map fun k => p.size - k).getD 0

theorem ahead_eq {k : Nat} (next : m.next? = some k) : m.ahead p = p.size - k := by
  rw [ahead, next]
  rfl

theorem ahead_le (p : Program) (m : Machine) : m.ahead p ≤ p.size := by
  cases next : m.next? with
  | none =>
    rw [ahead, next]
    exact Nat.zero_le _
  | some k =>
    rw [ahead_eq next]
    exact Nat.sub_le ..

/-- A step without a call does not depend on how calls are answered. It is made, and if it
costs nothing, then less is ahead. -/
theorem exists_step_of_callFree (assembled : p.Assembled) (callFree : p.CallFree)
    (inRange : m.InRange p) (running : m.isRunning = true) :
    0 < m.ahead p ∧ ∃ v, (∀ answering, (m.step answering p).run = some (.ok (some v))) ∧
      (v.cost = 0 → v.after.ahead p < m.ahead p) := by
  obtain ⟨k, next⟩ := Option.isSome_iff_exists.1 running
  have lt := inRange k next
  obtain ⟨i, at_k⟩ := Program.exists_instruction lt
  have calls : i.op.call? = none :=
    callFree i (List.mem_of_getElem? (Array.getElem?_toList.trans at_k))
  obtain ⟨next?, followed⟩ :=
    assembled.follow_total at_k (Instruction.jump_reaction (s := m.store) (y := ⟨0, 0⟩))
  refine ⟨by rw [ahead_eq next]; omega, _, fun answering => step_eq_some_iff.2
    ⟨k, i, _, next?, next, at_k, congrArg ExceptT.run (Instruction.effect_of_no_call calls),
      followed, rfl⟩, fun free => ?_⟩
  have base : i.baseCycles = 0 := by
    rw [Instruction.callCycles_reaction,
      Amount.sum_eq i.baseCycles_le] at free
    exact free
  rw [Instruction.jump_reaction_of_free base, Program.follow] at followed
  rw [ahead_eq next]
  cases followed
  unfold ahead
  split
  · change p.size - (k + 1) < p.size - k
    omega
  · change 0 < p.size - k
    omega

end Machine

namespace Run

variable {r : Run} {p : Program} {m : Machine} {before after : Ledger} {visits : List Visit}

/-- From the machine and the ledger on, the run executes these instructions and ends like this.
The last one may have been executed and then not been paid. -/
inductive Executes (r : Run) (p : Program) :
    Machine → Ledger → List Visit → Except RunError Machine → Ledger → Prop where
  | halted {m : Machine} {ledger : Ledger} (stopped : m.isRunning = false) :
    Executes r p m ledger [] (.ok m) ledger
  | cancelled {m : Machine} {ledger : Ledger} (running : m.isRunning = true)
      (raised : r.signal.isRaised ledger.charges = true) :
    Executes r p m ledger [] (.error .cancelled) ledger
  | failed {m : Machine} {ledger : Ledger} {e : RunError}
      (quiet : r.signal.isRaised ledger.charges = false)
      (step : (m.step (r.evaluator.answerAt 0) p).run = some (.error e)) :
    Executes r p m ledger [] (.error e) ledger
  | refused {m : Machine} {v : Visit} {before after : Ledger} {c : Shortfall}
      (quiet : r.signal.isRaised before.charges = false)
      (step : (m.step (r.evaluator.answerAt 0) p).run = some (.ok (some v)))
      (bill : Metered.bill r.payer? v.cost before = (.error c, after)) :
    Executes r p m before [v] (.error (.credits c)) after
  | paid {m : Machine} {v : Visit} {before between after : Ledger} {visits : List Visit}
      {result : Except RunError Machine}
      (quiet : r.signal.isRaised before.charges = false)
      (step : (m.step (r.evaluator.answerAt 0) p).run = some (.ok (some v)))
      (bill : Metered.bill r.payer? v.cost before = (.ok (), between))
      (rest : Executes r p v.after between visits result after) :
    Executes r p m before (v :: visits) result after

/-- The loop needs one round more than it executes instructions. -/
theorem Executes.toEnd {result : Except RunError Machine}
    (executes : r.Executes p m before visits result after) {n : Nat} (lt : visits.length < n) :
    (r.toEnd p n m).run before = some (result, after) := by
  induction executes generalizing n with
  | halted stopped =>
    obtain ⟨n, rfl⟩ := Nat.exists_eq_add_one_of_ne_zero (Nat.ne_of_gt lt)
    rw [Run.toEnd, stopped]
    rfl
  | @cancelled m ledger running raised =>
    obtain ⟨n, rfl⟩ := Nat.exists_eq_add_one_of_ne_zero (Nat.ne_of_gt lt)
    have counted : (Metered.charges : Metered RunError Nat).run ledger =
      some (.ok ledger.charges, ledger) := rfl
    rw [Run.toEnd, running]
    simp only [Bool.not_true, Bool.false_eq_true, if_false]
    rw [Keeping.run_bind, counted]
    simp only [raised, if_true]
    rfl
  | failed quiet step =>
    obtain ⟨n, rfl⟩ := Nat.exists_eq_add_one_of_ne_zero (Nat.ne_of_gt lt)
    rw [run_toEnd_of_quiet quiet, step]
  | refused quiet step bill =>
    obtain ⟨n, rfl⟩ : ∃ k, n = k + 1 := ⟨n - 1, by omega⟩
    rw [run_toEnd_of_quiet quiet, step]
    simp only [bill]
  | paid quiet step bill _ ih =>
    obtain ⟨n, rfl⟩ : ∃ k, n = k + 1 := ⟨n - 1, by omega⟩
    rw [run_toEnd_of_quiet quiet, step]
    simp only [bill]
    exact ih (by rw [List.length_cons] at lt; omega)

/-- What the run executes, and how it ends, does not depend on its evaluator. The induction is on
the number of instructions that can still be executed: for every credit the whole program, and
what is ahead of the machine. -/
theorem exists_executes {user : String} (assembled : p.Assembled) (callFree : p.CallFree)
    (signal : Signal) (bound : Nat) {balance : Nat} (inRange : m.InRange p)
    (available : before.balance? user = some balance)
    (enough : balance * p.size + m.ahead p ≤ bound) :
    ∃ visits result after, visits.length ≤ bound ∧
      ∀ r : Run, r.payer? = some user → r.signal = signal →
        r.Executes p m before visits result after := by
  induction bound generalizing m before balance with
  | zero =>
    cases running : m.isRunning with
    | false => exact ⟨[], _, _, Nat.le_refl _, fun _ _ _ => .halted running⟩
    | true =>
      obtain ⟨more, -⟩ := Machine.exists_step_of_callFree assembled callFree inRange running
      omega
  | succ bound ih =>
    cases running : m.isRunning with
    | false => exact ⟨[], _, _, Nat.zero_le _, fun _ _ _ => .halted running⟩
    | true =>
      cases raised : signal.isRaised before.charges with
      | true =>
        exact ⟨[], _, _, Nat.zero_le _, fun r _ same => .cancelled running (same ▸ raised)⟩
      | false =>
        obtain ⟨more, v, step, free⟩ :=
          Machine.exists_step_of_callFree assembled callFree inRange running
        cases bill : before.charge user v.cost with
        | mk paid between =>
          cases paid with
          | error c =>
            refine ⟨[v], .error (.credits c), between, Nat.succ_le_succ (Nat.zero_le _),
              fun r payer same => .refused (same ▸ raised) (step _) ?_⟩
            rw [payer]
            exact bill
          | ok =>
            obtain ⟨left, kept, sum⟩ := Ledger.balance?_of_charge_ok available bill
            have fewer : left * p.size + v.after.ahead p ≤ bound := by
              cases cost : v.cost with
              | zero =>
                have less := free cost
                have same : left = balance := by omega
                rw [same]
                omega
              | succ others =>
                have whole := v.after.ahead_le p
                have split : balance * p.size = left * p.size + (others + 1) * p.size := by
                  rw [← sum, cost, Nat.add_mul]
                have once : p.size ≤ (others + 1) * p.size := Nat.le_mul_of_pos_left _ (by omega)
                omega
            obtain ⟨visits, result, after, few, rest⟩ :=
              ih (Machine.InRange.step assembled (step fun _ _ => .unfinished)) kept fewer
            refine ⟨v :: visits, result, after, Nat.succ_le_succ few, fun r payer same =>
              .paid (same ▸ raised) (step _) ?_ (rest r payer same)⟩
            rw [payer]
            exact bill

/-- The run of a program on inputs ends after no more than so many instructions, however many
steps it is allowed beyond them. -/
def EndsWithin (r : Run) (p : Program) (inputs : List Int64) (before : Ledger) (bound : Nat) :
    Prop :=
  ∃ visits result after, visits.length ≤ bound ∧ ∀ stepLimit, visits.length < stepLimit →
    (r.within stepLimit).Executes p (.ofInputs p inputs) before visits result after ∧
    ((r.within stepLimit).perform p inputs).run before =
      some (result.map (Machine.outcome p), after)

theorem endsWithin_of_callFree {user : String} (payer : r.payer? = some user) {balance : Nat}
    (available : before.balance? user = some balance) (inputs : List Int64)
    (assembled : p.Assembled) (callFree : p.CallFree) :
    r.EndsWithin p inputs before ((balance + 1) * p.size) := by
  have inRange : (Machine.ofInputs p inputs).InRange p := Machine.inRange_start _ _
  have ahead := (Machine.ofInputs p inputs).ahead_le p
  obtain ⟨visits, result, after, few, executes⟩ :=
    exists_executes assembled callFree r.signal ((balance + 1) * p.size) inRange available
      (by rw [Nat.add_mul]; omega)
  refine ⟨visits, result, after, few, fun stepLimit lt => ?_⟩
  have executes := executes (r.within stepLimit) payer rfl
  have ended := executes.toEnd (n := (r.within stepLimit).evaluator.stepLimit) lt
  refine ⟨executes, ?_⟩
  rw [run_perform, ended]
  rfl

/-- A run that is paid for from a balance, and to which nobody else adds or charges anything. It
ends in every program that makes no calls, be it a generation of an expansion or not, after no
more instructions than the program has for each credit and once more. The last generation of an
expansion makes no calls. -/
theorem credits_bound_call_free_runs {r : Run} {user : String} (payer : r.payer? = some user)
    {before : Ledger} {balance : Nat} (available : before.balance? user = some balance)
    (inputs : List Int64) :
    (∀ p : Program, p.Assembled → p.CallFree →
      r.EndsWithin p inputs before ((balance + 1) * p.size)) ∧
    ∀ functions p e, p.Assembled → (Expansion.ofProgram functions p).run = some (.ok e) →
      (∀ d q, e.generation? d = some q → q.CallFree →
        r.EndsWithin q inputs before ((balance + 1) * q.size)) ∧
      r.EndsWithin e.latest inputs before ((balance + 1) * e.latest.size) := by
  refine ⟨fun _ => endsWithin_of_callFree payer available inputs,
    fun functions p e assembled expanded => ?_⟩
  obtain ⟨chained, rfl, basic⟩ := Expansion.chained_of_ofProgram expanded
  have built : ∀ d q, e.generation? d = some q → q.Assembled := fun _ _ =>
    chained.induction assembled fun _ _ _ _ => Expansion.assembled_of_nextGeneration
  refine ⟨fun d q at_d => endsWithin_of_callFree payer available inputs (built d q at_d), ?_⟩
  exact endsWithin_of_callFree payer available inputs
    (built e.topDegree e.latest e.generation?_topDegree)
    fun i mem => Program.call?_of_isBasic basic mem

/-- A free instruction and a jump back to it. -/
def spinning : Program where
  header := ⟨"S", "S", .main⟩
  degree := 0
  instructions := #[
    { subject := .result, op := .neutral, label := Session.firstLabel, number := 1 },
    { subject := .result, op := .gotoLabel Session.firstLabel, number := 2 }]
  positions := .ofList [(Session.firstLabel, 0)]
  inputs := ∅
  works := ∅
  names := { highestLabel := 1 }

theorem step_spinning (answering : Answering) {m : Machine}
    (inside : m.next? = some 0 ∨ m.next? = some 1) :
    ∃ v, (m.step answering spinning).run = some (.ok (some v)) ∧
      (v.after.next? = some 0 ∨ v.after.next? = some 1) := by
  obtain ⟨next?, store, cycles⟩ := m
  obtain rfl | rfl := inside
  · exact ⟨_, rfl, .inr rfl⟩
  · exact ⟨_, rfl, .inl rfl⟩

theorem not_finishes_spinning {answering : Answering} {m last : Machine} {costs : List Nat}
    {result : Except RunError Machine} (inside : m.next? = some 0 ∨ m.next? = some 1)
    (makes : m.Makes answering spinning costs last) :
    ¬ last.Finishes answering spinning result := by
  induction makes with
  | nil m =>
    obtain ⟨v, turned, -⟩ := step_spinning answering inside
    rintro (stopped | step)
    · cases (Paid.step_of_not_running stopped).symm.trans turned
    · cases step.symm.trans turned
  | cons step _ ih =>
    obtain ⟨v, turned, inside⟩ := step_spinning answering inside
    cases turned.symm.trans step
    exact ih inside

/-- If nobody has to pay, `spinning` never ends. Three credits end it. -/
theorem credits_bound_call_free_runs_spinning :
    let r : Run := { evaluator := { functions := ∅, stepLimit := 10 }, payer? := some "u" }
    let before := Ledger.empty.deposit "u" 3
    before.balance? "u" = some 3 ∧ spinning.Assembled ∧ spinning.CallFree ∧
      (∀ result after, ¬ r.free.Ends spinning [] before result after) ∧
      r.EndsWithin spinning [] before 8 := by
  intro r before
  have available : before.balance? "u" = some 3 := by decide +kernel
  have assembled : spinning.Assembled :=
    ⟨spinning.header, 0, spinning.instructions.toList, {}, rfl⟩
  have callFree : spinning.CallFree := by decide
  refine ⟨available, assembled, callFree, fun result after ended => ?_,
    (credits_bound_call_free_runs (r := r) rfl available []).1 spinning assembled callFree⟩
  obtain ⟨-, costs, stepLimit, last, x, makes, finishes, -⟩ :=
    (ends_free_iff (r := r) rfl assembled).1 ended
  exact not_finishes_spinning (.inl rfl) makes finishes

end Run

end SLanguage
