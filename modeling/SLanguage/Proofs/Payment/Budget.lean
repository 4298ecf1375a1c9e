import SLanguage.Proofs.Payment
import SLanguage.Proofs.Session.Credits

/-! Runs on a budget. A run that is paid for makes the steps of the free run as long as the
balance covers what they cost in all. It is refused at the first step that is not covered, and
otherwise ends as the free run does. -/

namespace SLanguage

namespace Ledger

/-- A charge of more than there is is refused, and nothing is taken. -/
theorem charge_of_lt {l : Ledger} {user : String} {available : Nat} (amount : Nat)
    (balance : l.balance? user = some available) (short : available < amount) :
    ∃ after, l.charge user amount = (.error ⟨user, amount, available⟩, after) ∧
      after.balance? user = some available := by
  have same : ({ l with charges := l.charges + 1 } : Ledger).balance? user = some available :=
    balance
  refine ⟨{ l with charges := l.charges + 1 }, ?_, same⟩
  simp only [charge, same]
  rw [if_neg (by omega), if_pos short]

/-- A charge is refused only where there is less, and the refusal says how much there is. -/
theorem lt_of_charge_error {l after : Ledger} {user : String} {amount available : Nat}
    {c : Shortfall} (balance : l.balance? user = some available)
    (refused : l.charge user amount = (.error c, after)) :
    available < amount ∧ c = ⟨user, amount, available⟩ ∧
      after.balance? user = some available := by
  have short : available < amount := by
    by_contra enough
    have covered : ∀ left, l.balance? user = some left → amount ≤ left := fun left same => by
      cases balance.symm.trans same
      omega
    obtain ⟨_, paid, -⟩ := l.exists_charge covered
    cases paid.symm.trans refused
  obtain ⟨_, short', left⟩ := charge_of_lt amount balance short
  cases short'.symm.trans refused
  exact ⟨short, rfl, left⟩

end Ledger

namespace Machine

variable {answering : Answering} {p : Program} {m mid last : Machine} {costs more : List Nat}

/-- The machine makes steps of these costs, and then stands like the second one. -/
inductive Makes (answering : Answering) (p : Program) : Machine → List Nat → Machine → Prop where
  | nil (m : Machine) : Makes answering p m [] m
  | cons {m last : Machine} {v : Visit} {costs : List Nat}
      (step : (m.step answering p).run = some (.ok (some v)))
      (rest : Makes answering p v.after costs last) : Makes answering p m (v.cost :: costs) last

/-- No further step is made, since the machine has halted or since the step fails. -/
inductive Finishes (answering : Answering) (p : Program) (m : Machine) :
    Except RunError Machine → Prop where
  | halted (stopped : m.isRunning = false) : Finishes answering p m (.ok m)
  | failed {e : RunError} (step : (m.step answering p).run = some (.error e)) :
    Finishes answering p m (.error e)

namespace Makes

theorem exists_append (makes : Makes answering p m (costs ++ more) last) :
    ∃ mid, Makes answering p m costs mid ∧ Makes answering p mid more last := by
  induction costs generalizing m with
  | nil => exact ⟨m, .nil m, makes⟩
  | cons c costs ih =>
    cases makes with
    | cons step rest =>
      obtain ⟨mid, first, others⟩ := ih rest
      exact ⟨mid, .cons step first, others⟩

theorem snoc {v : Visit} (makes : Makes answering p m costs last)
    (step : (last.step answering p).run = some (.ok (some v))) :
    Makes answering p m (costs ++ [v.cost]) v.after := by
  induction makes with
  | nil m => exact .cons step (.nil _)
  | cons first _ ih => exact .cons first (ih step)

theorem cycles (makes : Makes answering p m costs last) (small : m.cycles ≤ Amount.largest) :
    last.cycles = Amount.sum m.cycles costs.sum := by
  induction makes with
  | nil m => exact (Amount.sum_eq (b := 0) small).symm
  | cons step rest ih =>
    have counted := cycles_of_step step
    rw [ih (counted ▸ Amount.sum_le _ _), counted, Amount.sum_assoc, List.sum_cons]
    simp only [Amount.sum]
    omega

/-- Steps that the payer has enough for are paid one after the other. -/
theorem paid {user : String} {before : Ledger} {balance : Nat}
    (makes : Makes answering p m costs last) (available : before.balance? user = some balance)
    (enough : costs.sum ≤ balance) :
    ∃ between, between.balance? user = some (balance - costs.sum) ∧
      ∀ r after, Paid answering (some user) p last between r after →
        Paid answering (some user) p m before r after := by
  induction makes generalizing before balance with
  | nil m => exact ⟨before, available, fun _ _ => id⟩
  | @cons m last v costs step rest ih =>
    rw [List.sum_cons] at enough
    have covered : ∀ had, before.balance? user = some had → v.cost ≤ had := fun had same => by
      cases available.symm.trans same
      omega
    obtain ⟨first, bill, left⟩ := before.exists_charge covered
    rw [available, Option.map_some] at left
    obtain ⟨between, left, ends⟩ := ih left (by omega)
    refine ⟨between, ?_, fun r after ended => .paid step bill (ends r after ended)⟩
    rw [left, List.sum_cons, Nat.sub_sub]

end Makes

theorem nth?_succ (k : Nat) : m.nth? answering p (k + 1) =
    (m.visit? answering p).bind fun v => v.after.nth? answering p k := by
  induction k with
  | zero => rfl
  | succ k ih =>
    rw [nth?, ih, Option.bind_assoc]
    rfl

/-- The steps that the run from the machine makes can be told by their numbers. -/
theorem exists_makes_of_nth?
    (made : ∀ k < costs.length, (m.nth? answering p k).map Visit.cost = costs[k]?) :
    ∃ last, m.Makes answering p costs last := by
  induction costs generalizing m with
  | nil => exact ⟨m, .nil m⟩
  | cons c costs ih =>
    obtain ⟨v, step, rfl⟩ := Option.map_eq_some_iff.1 (made 0 (by simp))
    obtain ⟨last, makes⟩ := ih (m := v.after) fun k lt => by
      have later := made (k + 1) (by simpa using lt)
      rwa [nth?_succ, show m.visit? answering p = some v from step, Option.bind_some,
        List.getElem?_cons_succ] at later
    exact ⟨last, .cons (visit?_eq_some_iff.1 step) makes⟩

/-- Of steps that cost more in all than there is, the first ones are covered up to one that is
not. -/
theorem exists_uncovered {costs : List Nat} {balance : Nat} (short : balance < costs.sum) :
    ∃ paid c rest, costs = paid ++ c :: rest ∧ paid.sum ≤ balance ∧ balance < paid.sum + c := by
  induction costs generalizing balance with
  | nil => cases short
  | cons c costs ih =>
    rw [List.sum_cons] at short
    by_cases covered : c ≤ balance
    · have later : balance - c < costs.sum := by omega
      obtain ⟨paid, d, rest, rfl, enough, short⟩ := ih later
      exact ⟨c :: paid, d, rest, rfl, by rw [List.sum_cons]; omega, by rw [List.sum_cons]; omega⟩
    · exact ⟨[], c, costs, rfl, Nat.zero_le _, by simpa using covered⟩

end Machine

namespace Paid

variable {answering : Answering} {p : Program} {m : Machine} {before after : Ledger}
  {r : Except RunError Machine}

/-- Where nobody pays, a run ends where no further step is made. -/
theorem free_iff : Paid answering none p m before r after ↔
    after = before ∧
      ∃ costs last, m.Makes answering p costs last ∧ last.Finishes answering p r := by
  constructor
  · intro ended
    induction ended with
    | halted stopped => exact ⟨rfl, _, _, .nil _, .halted stopped⟩
    | failed step => exact ⟨rfl, _, _, .nil _, .failed step⟩
    | refused step bill =>
      cases bill
    | paid step bill _ ih =>
      cases bill
      obtain ⟨rfl, costs, last, makes, finishes⟩ := ih
      exact ⟨rfl, _, last, .cons step makes, finishes⟩
  · rintro ⟨rfl, costs, last, makes, finishes⟩
    induction makes with
    | nil m =>
      cases finishes with
      | halted stopped => exact .halted stopped
      | failed step => exact .failed step
    | cons step _ ih => exact .paid step rfl (ih finishes)

/-- Where somebody pays, the steps that are made are covered, and the run ends where no further
step is made or where the next one is not covered. -/
theorem exists_makes {user : String} {balance : Nat}
    (ended : Paid answering (some user) p m before r after)
    (available : before.balance? user = some balance) :
    ∃ costs last, m.Makes answering p costs last ∧ costs.sum ≤ balance ∧
      after.balance? user = some (balance - costs.sum) ∧
      (last.Finishes answering p r ∨ ∃ v, (last.step answering p).run = some (.ok (some v)) ∧
        balance < costs.sum + v.cost ∧
        r = .error (.credits ⟨user, v.cost, balance - costs.sum⟩)) := by
  induction ended generalizing balance with
  | halted stopped =>
    exact ⟨_, _, .nil _, Nat.zero_le _, available, .inl (.halted stopped)⟩
  | failed step =>
    exact ⟨_, _, .nil _, Nat.zero_le _, available, .inl (.failed step)⟩
  | refused step bill =>
    obtain ⟨short, rfl, left⟩ := Ledger.lt_of_charge_error available bill
    exact ⟨_, _, .nil _, Nat.zero_le _, left, .inr ⟨_, step, by simpa using short, rfl⟩⟩
  | @paid m v before between after r step bill _ ih =>
    obtain ⟨left, kept, rfl⟩ := Ledger.balance?_of_charge_ok available bill
    obtain ⟨costs, last, makes, enough, rest, ends⟩ := ih kept
    have fewer : left + v.cost - (v.cost :: costs).sum = left - costs.sum := by
      rw [List.sum_cons]
      omega
    refine ⟨v.cost :: costs, last, .cons step makes, ?_, fewer ▸ rest, ends.imp_right ?_⟩
    · rw [List.sum_cons]
      omega
    · rintro ⟨u, next, short, rfl⟩
      refine ⟨u, next, ?_, by rw [fewer]⟩
      rw [List.sum_cons]
      omega

end Paid

namespace Run

variable {r : Run} {p : Program} {inputs : List Int64} {before : Ledger} {costs : List Nat}

/-- The run that nobody pays for. -/
def free (r : Run) : Run :=
  { r with payer? := none }

/-- If nobody has to pay for it, the run begins with steps of these costs. -/
def Makes (r : Run) (p : Program) (inputs : List Int64) (costs : List Nat) : Prop :=
  ∃ stepLimit last,
    (Machine.ofInputs p inputs).Makes ((r.within stepLimit).evaluator.answerAt 0) p costs last

/-- If nobody has to pay for it, the run ends like this after steps of these costs. -/
def Finishes (r : Run) (p : Program) (inputs : List Int64) (costs : List Nat)
    (result : Except RunError Outcome) : Prop :=
  ∃ stepLimit last x,
    (Machine.ofInputs p inputs).Makes ((r.within stepLimit).evaluator.answerAt 0) p costs last ∧
    last.Finishes ((r.within stepLimit).evaluator.answerAt 0) p x ∧
    result = x.map (Machine.outcome p)

theorem ends_free_iff (signal : r.signal = {}) (assembled : p.Assembled) {ledger after : Ledger}
    {result : Except RunError Outcome} :
    r.free.Ends p inputs ledger result after ↔
      after = ledger ∧ ∃ costs, r.Finishes p inputs costs result := by
  rw [ends_iff_settles (r := r.free) signal assembled]
  constructor
  · rintro ⟨x, ⟨stepLimit, ended⟩, rfl⟩
    obtain ⟨same, costs, last, makes, finishes⟩ := Paid.free_iff.1 ended
    exact ⟨same, costs, stepLimit, last, x, makes, finishes, rfl⟩
  · rintro ⟨same, costs, stepLimit, last, x, makes, finishes, rfl⟩
    exact ⟨x, ⟨stepLimit, Paid.free_iff.2 ⟨same, costs, last, makes, finishes⟩⟩, rfl⟩

section Payer

variable (signal : r.signal = {}) {user : String} (payer : r.payer? = some user)
  (assembled : p.Assembled) {balance : Nat} (available : before.balance? user = some balance)

include signal payer assembled available

theorem ends_of_makes (makes : r.Makes p inputs costs) (short : balance < costs.sum) :
    ∃ paid c rest, costs = paid ++ c :: rest ∧ paid.sum ≤ balance ∧ balance < paid.sum + c ∧
      ∃ after, r.Ends p inputs before (.error (.credits ⟨user, c, balance - paid.sum⟩)) after ∧
        after.balance? user = some (balance - paid.sum) := by
  obtain ⟨paid, c, rest, rfl, enough, short⟩ := Machine.exists_uncovered short
  obtain ⟨stepLimit, last, makes⟩ := makes
  obtain ⟨mid, first, others⟩ := makes.exists_append
  cases others with
  | @cons _ _ v _ step _ =>
    obtain ⟨between, left, ends⟩ := first.paid available enough
    obtain ⟨after, bill, rest⟩ := Ledger.charge_of_lt v.cost left (by omega)
    refine ⟨paid, _, _, rfl, enough, short, after, ?_, rest⟩
    refine (ends_iff_settles signal assembled).2 ⟨.error _, ⟨stepLimit, ?_⟩, rfl⟩
    rw [payer]
    exact ends _ _ (.refused step bill)

theorem ends_of_finishes {result : Except RunError Outcome}
    (finishes : r.Finishes p inputs costs result) (enough : costs.sum ≤ balance) :
    ∃ after, r.Ends p inputs before result after ∧
      after.balance? user = some (balance - costs.sum) := by
  obtain ⟨stepLimit, last, x, makes, finishes, rfl⟩ := finishes
  obtain ⟨between, left, ends⟩ := makes.paid available enough
  refine ⟨between, (ends_iff_settles signal assembled).2 ⟨x, ⟨stepLimit, ?_⟩, rfl⟩, left⟩
  rw [payer]
  refine ends _ _ ?_
  cases finishes with
  | halted stopped => exact .halted stopped
  | failed step => exact .failed step

theorem exists_costs {result : Except RunError Outcome} {after : Ledger}
    (ended : r.Ends p inputs before result after) :
    ∃ costs, costs.sum ≤ balance ∧ after.balance? user = some (balance - costs.sum) ∧
      (r.Finishes p inputs costs result ∨ ∃ c, r.Makes p inputs (costs ++ [c]) ∧
        balance < costs.sum + c ∧
        result = .error (.credits ⟨user, c, balance - costs.sum⟩)) := by
  obtain ⟨x, ⟨stepLimit, paid⟩, rfl⟩ := (ends_iff_settles signal assembled).1 ended
  rw [payer] at paid
  obtain ⟨costs, last, makes, enough, left, ends⟩ := paid.exists_makes available
  refine ⟨costs, enough, left, ?_⟩
  obtain finishes | ⟨v, step, short, rfl⟩ := ends
  · exact .inl ⟨stepLimit, last, x, makes, finishes, rfl⟩
  · exact .inr ⟨v.cost, ⟨stepLimit, v.after, makes.snoc step⟩, short, rfl⟩

end Payer

theorem Finishes.cycles {outcome : Outcome} (finishes : r.Finishes p inputs costs (.ok outcome))
    (small : costs.sum ≤ Amount.largest) : outcome.cycles.toNat = costs.sum := by
  obtain ⟨stepLimit, last, x, makes, finishes, same⟩ := finishes
  cases finishes with
  | failed => cases same
  | halted =>
    cases same
    have largest : Amount.largest < UInt64.size := by decide
    have cycles : last.cycles = Amount.sum 0 costs.sum := makes.cycles (Nat.zero_le _)
    have counted : last.cycles = costs.sum := by
      rw [cycles, Amount.sum_eq (by omega), Nat.zero_add]
    change (UInt64.ofNat last.cycles).toNat = costs.sum
    rw [counted, UInt64.toNat_ofNat_of_lt' (by omega)]

/-- A run that is paid for from a balance, and to which nobody else adds or charges anything. The
steps of the free run cost what they cost. If they come to more than the balance, the run is
refused at the first one that the balance does not cover: the refusal asks for what this step
costs and tells what is left after the ones before. If the free run halts before that, so does the
run, with the same outcome, whose cycles are the exact sum of the costs, and the balance is less
by as much. If the free run fails before that, so does the run, with the same error, after paying
for the steps that were completed. And the run ends in no other way. -/
theorem paid_as_far_as_affordable {r : Run} (uncancelled : r.signal = {}) {user : String}
    (payer : r.payer? = some user) {p : Program} (assembled : p.Assembled) (inputs : List Int64)
    {before : Ledger} {balance : Nat} (available : before.balance? user = some balance)
    (small : balance ≤ Amount.largest) :
    (∀ ledger result after, r.free.Ends p inputs ledger result after ↔
      after = ledger ∧ ∃ costs, r.Finishes p inputs costs result) ∧
    (∀ costs, r.Makes p inputs costs → balance < costs.sum →
      ∃ paid c rest, costs = paid ++ c :: rest ∧ paid.sum ≤ balance ∧ balance < paid.sum + c ∧
        ∃ after, r.Ends p inputs before (.error (.credits ⟨user, c, balance - paid.sum⟩)) after ∧
          after.balance? user = some (balance - paid.sum)) ∧
    (∀ costs outcome, r.Finishes p inputs costs (.ok outcome) → costs.sum ≤ balance →
      outcome.cycles.toNat = costs.sum ∧ ∃ after, r.Ends p inputs before (.ok outcome) after ∧
        after.balance? user = some (balance - outcome.cycles.toNat)) ∧
    (∀ costs e, r.Finishes p inputs costs (.error e) → costs.sum ≤ balance →
      ∃ after, r.Ends p inputs before (.error e) after ∧
        after.balance? user = some (balance - costs.sum)) ∧
    ∀ result after, r.Ends p inputs before result after →
      ∃ costs, costs.sum ≤ balance ∧ after.balance? user = some (balance - costs.sum) ∧
        (r.Finishes p inputs costs result ∨ ∃ c, r.Makes p inputs (costs ++ [c]) ∧
          balance < costs.sum + c ∧
          result = .error (.credits ⟨user, c, balance - costs.sum⟩)) ∧
        ∀ other left, r.Ends p inputs before other left → result = other ∧ after = left := by
  refine ⟨fun _ _ _ => ends_free_iff uncancelled assembled,
    fun _ makes short => ends_of_makes uncancelled payer assembled available makes short,
    fun costs outcome finishes enough => ?_,
    fun _ _ finishes enough =>
      ends_of_finishes uncancelled payer assembled available finishes enough,
    fun result after ended => ?_⟩
  · have cycles := finishes.cycles (Nat.le_trans enough small)
    rw [cycles]
    exact ⟨rfl, ends_of_finishes uncancelled payer assembled available finishes enough⟩
  · obtain ⟨costs, enough, left, ends⟩ :=
      exists_costs uncancelled payer assembled available ended
    exact ⟨costs, enough, left, ends, fun _ _ => ended.unique uncancelled assembled⟩

/-- The first pass of `moving` costs four credits and its second pass another four. Of seven
credits the user keeps one, which is not enough for the step that asks for two. -/
theorem paid_as_far_as_affordable_moving :
    let r : Run := { evaluator := { functions := ∅, stepLimit := 10 }, payer? := some "u" }
    let before := Ledger.empty.deposit "u" 7
    before.balance? "u" = some 7 ∧ r.Makes Session.moving [2] [1, 1, 2, 1, 1, 2] ∧
      ∃ after, r.Ends Session.moving [2] before (.error (.credits ⟨"u", 2, 1⟩)) after ∧
        after.balance? "u" = some 1 := by
  intro r before
  have available : before.balance? "u" = some 7 := by decide +kernel
  have makes : r.Makes Session.moving [2] [1, 1, 2, 1, 1, 2] :=
    ⟨10, Machine.exists_makes_of_nth? (by decide +kernel)⟩
  refine ⟨available, makes, ?_⟩
  obtain ⟨-, refused, -⟩ :=
    paid_as_far_as_affordable (r := r) rfl rfl Session.assembled_moving [2] available
      (by decide)
  obtain ⟨paid, c, rest, eq, enough, short, after, ended, left⟩ := refused _ makes (by decide)
  have sixth : ∀ k < 6, 7 < ([1, 1, 2, 1, 1, 2].take (k + 1)).sum → k = 5 := by decide
  have covered : paid.length = 5 := by
    refine sixth _ ?_ ?_
    · have steps := congrArg List.length eq
      simp only [List.length_append, List.length_cons, List.length_nil] at steps
      omega
    · rw [eq, List.take_length_add_append]
      simpa using short
  have parts : [1, 1, 2, 1, 1] ++ [2] = paid ++ c :: rest := eq
  obtain ⟨rfl, next⟩ := List.append_inj parts covered.symm
  cases next
  exact ⟨after, ended, left⟩

end Run

end SLanguage
