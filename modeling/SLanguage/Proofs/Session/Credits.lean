import Mathlib.Algebra.Ring.Nat
import SLanguage.Proofs.Session.Cursor
import SLanguage.Proofs.Session.Twins

/-! Credits of a session follow its position. What its user has paid, beyond what came
back, is the cost of the steps that lie behind the session, in whatever order the user's
moves and deposits come and whichever of them fail. -/

namespace SLanguage

namespace Ledger

theorem balances?_of_charge_error {l after : Ledger} {user : String} {amount : Nat}
    {c : Shortfall} (h : l.charge user amount = (.error c, after)) :
    after.balances? = l.balances? := by
  unfold charge at h
  simp only at h
  split at h
  · cases h
  · split at h
    · cases h
    · split at h
      · cases h
        rfl
      · cases h

/-- A charge that is paid takes its amount. -/
theorem balance?_of_charge_ok {l after : Ledger} {user : String} {amount available : Nat}
    (balance : l.balance? user = some available)
    (h : l.charge user amount = (.ok (), after)) :
    ∃ left, after.balance? user = some left ∧ left + amount = available := by
  have same : ({ l with charges := l.charges + 1 } : Ledger).balance? user = some available :=
    balance
  unfold charge at h
  simp only [same] at h
  split at h
  · rename_i nothing
    cases h
    exact ⟨available, same, by omega⟩
  · split at h
    · cases h
    · rename_i enough
      cases h
      refine ⟨available - amount, ?_, by omega⟩
      rw [balance?_setBalance, if_pos rfl]
      obtain ⟨balances, kept, -⟩ := Option.map_eq_some_iff.1 balance
      simp [kept]

/-- Who has the amount pays it, and so does who holds no balance. -/
theorem exists_charge (l : Ledger) {user : String} {amount : Nat}
    (enough : ∀ available, l.balance? user = some available → amount ≤ available) :
    ∃ after, l.charge user amount = (.ok (), after) ∧
      after.balance? user = (l.balance? user).map fun balance => balance - amount := by
  have same : ({ l with charges := l.charges + 1 } : Ledger).balance? user = l.balance? user := rfl
  cases balance : l.balance? user with
  | none =>
    refine ⟨{ l with charges := l.charges + 1 }, ?_, same.trans balance⟩
    simp only [charge, same, balance]
  | some available =>
    have paid : (l.charge user amount).1 = .ok () := by
      have := enough available balance
      simp only [charge, same, balance]
      split
      · rfl
      · rw [if_neg (by omega)]
    obtain ⟨left, after, sum⟩ := balance?_of_charge_ok balance (Prod.ext paid rfl)
    refine ⟨(l.charge user amount).2, Prod.ext paid rfl, ?_⟩
    rw [after, Option.map_some]
    congr 1
    omega

theorem balance?_deposit {l : Ledger} {user : String} {amount available : Nat}
    (balance : l.balance? user = some available) (fits : available + amount ≤ Amount.largest) :
    (l.deposit user amount).balance? user = some (available + amount) := by
  rw [balance?_deposit_self, balance, Option.map_some, Amount.sum_eq fits]

theorem balance?_refund {l : Ledger} {user : String} {amount available : Nat}
    (balance : l.balance? user = some available) (fits : available + amount ≤ Amount.largest) :
    (l.refund user amount).balance? user = some (available + amount) := by
  unfold refund
  split
  · rename_i nothing
    rw [balance, nothing, Nat.add_zero]
  · exact balance?_deposit balance fits

end Ledger

namespace Session

variable {user : String} {s t : Session} {before after : Ledger}

/-- The cost of the steps that lie behind a session. -/
def spent (s : Session) : Nat :=
  (s.past.map Visit.cost).sum

/-- The steps behind the session are the entries of its log up to its position. -/
theorem spent_eq (s : Session) : s.spent = ((s.log.take s.past.length).map Prod.snd).sum := by
  have behind : s.history.take s.past.length = s.past.reverse := by
    rw [history, List.take_append_of_le_length (by simp), List.take_of_length_le (by simp)]
  have costs : (s.log.take s.past.length).map Prod.snd = (s.past.map Visit.cost).reverse := by
    rw [log, ← List.map_take, behind, List.map_map, ← List.map_reverse]
    rfl
  rw [costs, List.sum_reverse]
  rfl

/-- The user's balance and the cost of the steps behind the session make up the total. -/
def Balanced (user : String) (total : Nat) (s : Session) (ledger : Ledger) : Prop :=
  s.payer? = some user ∧ ∃ left, ledger.balance? user = some left ∧ left + s.spent = total

namespace Balanced

variable {total : Nat}

theorem bill (h : Balanced user total s before) {v : Visit}
    (paid : Metered.bill s.payer? v.cost before = (.ok (), after)) :
    ∃ left, after.balance? user = some left ∧ left + (v.cost + s.spent) = total := by
  obtain ⟨payer, left, balance, sum⟩ := h
  rw [payer] at paid
  obtain ⟨rest, balance, eq⟩ := Ledger.balance?_of_charge_ok balance paid
  exact ⟨rest, balance, by omega⟩

theorem forward (h : Balanced user total s before) (moved : Forward s before t after) :
    Balanced user total t after := by
  cases moved with
  | replayed future paid =>
    obtain ⟨left, balance, sum⟩ := h.bill paid
    exact ⟨h.1, left, balance, by simpa [spent, arrived] using sum⟩
  | halted => exact h
  | executed future next paid =>
    obtain ⟨left, balance, sum⟩ := h.bill paid
    exact ⟨h.1, left, balance, by simpa [spent, arrived] using sum⟩

end Balanced

/-- A step forward that fails leaves the balances as they were. -/
theorem balances?_of_forward_error {e : RunError}
    (failed : s.forward.run before = some (.error e, after)) :
    after.balances? = before.balances? := by
  obtain rfl | ⟨amount, c, billed⟩ := bill_of_forward_error failed
  · rfl
  · unfold Metered.bill at billed
    split at billed
    · cases billed
    · exact Ledger.balances?_of_charge_error billed

theorem Balanced.of_balances? {total : Nat} (h : Balanced user total s before)
    (same : after.balances? = before.balances?) : Balanced user total s after := by
  obtain ⟨payer, left, balance, sum⟩ := h
  exact ⟨payer, left, by rw [← balance, Ledger.balance?, same, Ledger.balance?], sum⟩

theorem balanced_kept (user : String) (total : Nat) : Kept (Balanced user total) where
  marks _ _ h := h
  rest _ _ h := h
  forward h moved := h.forward moved
  failed h failed := h.of_balances? (balances?_of_forward_error failed)

/-- The refund for the step behind the session, if there is one, does not reach the limit. -/
def RefundFits (user : String) (s : Session) (ledger : Ledger) : Prop :=
  ∀ v left, s.past.head? = some v → ledger.balance? user = some left →
    left + v.cost ≤ Amount.largest

theorem Balanced.back {total : Nat} (h : Balanced user total s before)
    (fits : RefundFits user s before) :
    Balanced user total (s.back before).1 (s.back before).2 := by
  cases past : s.past with
  | nil =>
    have stays : s.back before = (s, before) := by
      unfold Session.back
      rw [past]
    rw [stays]
    exact h
  | cons v rest =>
    obtain ⟨payer, left, balance, sum⟩ := h
    have moved : s.back before = ({ s with past := rest, future := v :: s.future }.arrived,
        before.refund user v.cost) := by
      unfold Session.back Metered.refund
      rw [past, payer]
    have refunded := Ledger.balance?_refund balance (fits v left (by rw [past]; rfl) balance)
    rw [moved]
    refine ⟨payer, left + v.cost, refunded, ?_⟩
    have cost : s.spent = v.cost + (rest.map Visit.cost).sum := by simp [spent, past]
    change left + v.cost + (rest.map Visit.cost).sum = total
    omega

/-- A session and a ledger in the course of the session's moves, of deposits to its user and
of what others do with the ledger, and the credits deposited so far. No deposit and no
refund reaches the limit, and the others leave the user's balance alone. -/
inductive Course (user : String) (start : Session) (initial : Ledger) :
    Session → Ledger → Nat → Prop
  | begin : Course user start initial start initial 0
  | move {s t : Session} {before after : Ledger} {deposited : Nat} {m : Move}
    {failure? : Option RunError} :
    Course user start initial s before deposited → (m = .back → RefundFits user s before) →
    s.perform m before = some ((t, failure?), after) → Course user start initial t after deposited
  | deposit {s : Session} {ledger : Ledger} {deposited amount : Nat} :
    Course user start initial s ledger deposited →
    (∀ left, ledger.balance? user = some left → left + amount ≤ Amount.largest) →
    Course user start initial s (ledger.deposit user amount) (deposited + amount)
  | elsewhere {s : Session} {before after : Ledger} {deposited : Nat} :
    Course user start initial s before deposited →
    after.balance? user = before.balance? user → Course user start initial s after deposited

namespace Course

variable {start : Session} {initial ledger : Ledger} {deposited : Nat}

theorem reaches (course : Course user start initial s ledger deposited) : start.Reaches s := by
  induction course with
  | begin => exact .refl
  | move _ _ moved ih => exact .move ih moved
  | deposit _ _ ih => exact ih
  | elsewhere _ _ ih => exact ih

theorem balanced {total : Nat} (balanced : Balanced user total start initial)
    (course : Course user start initial s ledger deposited) :
    Balanced user (total + deposited) s ledger := by
  induction course with
  | begin => exact balanced
  | move _ fits moved ih =>
    exact (balanced_kept user _).perform ih (fun back => ih.back (fits back)) moved
  | deposit _ fits ih =>
    obtain ⟨payer, left, balance, sum⟩ := ih
    exact ⟨payer, _, Ledger.balance?_deposit balance (fits left balance), by omega⟩
  | elsewhere _ same ih =>
    obtain ⟨payer, left, balance, sum⟩ := ih
    exact ⟨payer, left, same.trans balance, sum⟩

end Course

/-! A ledger counts charges, and a signal may wait for a count. Without such an appointment
sessions do the same on two ledgers that hold the same balances. -/

/-- The event makes no appointment. -/
def Event.Immediate : Event → Prop
  | .move (.signal signal) => signal.due? = none
  | _ => True

/-- Two answers that differ at most in how many charges were counted. -/
def Alike {α : Type} (a b : α × Ledger) : Prop :=
  a.1 = b.1 ∧ a.2.balances? = b.2.balances?

/-- Ledgers with the same balances answer all charges alike. -/
theorem congruent_balances (payer? : Option String) :
    Metered.Congruent payer? fun l l' => l.balances? = l'.balances? where
  bill {l l'} amount same := by
    cases payer? with
    | none => exact ⟨rfl, same⟩
    | some user =>
      unfold Metered.bill Ledger.charge Ledger.balance? Ledger.setBalance
      simp only [← same]
      cases l.balances? with
      | none => exact ⟨rfl, rfl⟩
      | some balances =>
        simp only [Option.map_some]
        split
        · exact ⟨rfl, rfl⟩
        · split <;> exact ⟨rfl, rfl⟩
  refund {l l'} amount same := by
    unfold Metered.refund Ledger.refund
    split
    · exact same
    · split
      · exact same
      · simp only [Ledger.deposit, Ledger.setBalance, Ledger.balance?, same]

theorem play_alike {l l' : Ledger} (same : l.balances? = l'.balances?) {s : Session}
    (immediate : s.signal.due? = none) {events : List Event} (now : ∀ e ∈ events, e.Immediate) :
    Option.Rel Alike (play events s l) (play events s l') := by
  have paired := paired_twins (congruent_balances s.payer?)
  have kept : ∀ e ∈ events, e.KeptBy fun t l t' l' =>
      t = t' ∧ l.balances? = l'.balances? ∧ t.Prompt s.payer? := by
    intro e mem
    cases e with
    | move m =>
      cases m with
      | signal signal =>
        rintro t l _ l' ⟨rfl, same, prompt⟩
        exact ⟨rfl, same, prompt.payer, now _ mem⟩
      | _ => trivial
    | deposit user amount =>
      rintro t l _ l' ⟨rfl, same, prompt⟩
      refine ⟨rfl, ?_, prompt⟩
      simp only [Ledger.deposit, Ledger.setBalance, Ledger.balance?, same]
  have played := paired.play (fun tied => tied.1) (fun tied => tied.2.1) kept
    ⟨rfl, same, rfl, immediate⟩
  generalize play events s l = first at played ⊢
  generalize play events s l' = second at played ⊢
  cases played with
  | none => exact .none
  | some answers =>
    obtain ⟨answers, left⟩ := answers
    refine .some ⟨?_, left⟩
    exact List.forall₂_eq_eq_eq ▸ answers.imp fun _ _ given => Prod.ext given.1 given.2.symm

/-! Steps and what they cost. -/

theorem back_of_atStart (atStart : s.past = []) (ledger : Ledger) :
    s.back ledger = (s, ledger) := by
  unfold back
  rw [atStart]

section Stepping

variable {r : Run} {p : Program} {first : Machine}

theorem OnRun.forward_of_halted (h : s.OnRun r p first) (halted : s.machine.isRunning = false)
    (ledger : Ledger) :
    s.forward.run ledger = some (.ok { s with state := .finished }, ledger) := by
  have unknown : s.future = [] := by
    cases future : s.future with
    | nil => rfl
    | cons v rest =>
      rw [h.isRunning_of_future future] at halted
      cases halted
  have stopped : s.machine.next? = none := by simpa [Machine.isRunning] using halted
  rw [run_forward_fresh unknown, nextStep, Machine.step_of_halted stopped]
  rfl

/-- A step, be it new or known, is paid with what the run says that it costs. -/
theorem OnRun.cost_of_forward {left : Nat} (h : s.OnRun r p first)
    (payer : s.payer? = some user) (balance : before.balance? user = some left)
    (inRange : s.machine.InRange p) (running : s.machine.isRunning = true)
    (moved : Forward s before t after) :
    ∃ cost rest, first.logged? (r.evaluator.answerAt 0) p s.past.length = some (t.current, cost) ∧
      after.balance? user = some rest ∧ rest + cost = left := by
  have stepped : ∃ v, t.past = v :: s.past ∧
      Metered.bill s.payer? v.cost before = (.ok (), after) := by
    cases moved with
    | replayed future paid => exact ⟨_, rfl, paid⟩
    | halted future next =>
      rw [nextStep, h.evaluator, h.program] at next
      simp [inRange.halted next] at running
    | executed future next paid => exact ⟨_, rfl, paid⟩
  obtain ⟨v, past, paid⟩ := stepped
  have there := h.forward moved
  have made := there.head?_eq (k := s.past.length) (by simp [past])
  rw [past, List.head?_cons] at made
  rw [payer] at paid
  obtain ⟨rest, balance, sum⟩ := Ledger.balance?_of_charge_ok balance paid
  refine ⟨v.cost, rest, ?_, balance, sum⟩
  rw [Machine.logged?, ← made, current, past, List.head?_cons, snapshotAfter, there.program]
  rfl

end Stepping

/-- At every moment of the course of a session, what its user has paid is the cost of the
steps behind it. A step forward that fails changes no balance and nothing that happens
later; going forward from a halt and back from the start are free; and every other step
forward takes what the run says that this step costs, however often it is made. -/
theorem credits_follow_position (r : Run) {p : Program} (assembled : p.Assembled)
    (inputs : List Int64) (payer : r.payer? = some user) {initial ledger : Ledger}
    {balance deposited : Nat} (funded : initial.balance? user = some balance)
    (course : Course user (start r p inputs) initial s ledger deposited) :
    ∃ left, ledger.balance? user = some left ∧
      left + ((s.log.take s.past.length).map Prod.snd).sum = balance + deposited ∧
      (∀ e after, s.forward.run ledger = some (.error e, after) →
        s.perform .forward ledger = some ((s, some e), after) ∧
        after.balances? = ledger.balances? ∧
        (s.signal.due? = none → ∀ events : List Event, (∀ e ∈ events, e.Immediate) →
          Option.Rel Alike (play events s after) (play events s ledger))) ∧
      (s.current.isRunning = false →
        s.forward.run ledger = some (.ok { s with state := .finished }, ledger)) ∧
      (s.past = [] → s.back ledger = (s, ledger)) ∧
      (∀ t after, s.current.isRunning = true → s.forward.run ledger = some (.ok t, after) →
        ∃ cost rest,
          (Machine.ofInputs p inputs).logged? (r.evaluator.answerAt 0) p s.past.length =
            some (t.current, cost) ∧
          after.balance? user = some rest ∧ rest + cost = left) := by
  obtain ⟨onRun, -⟩ := course.reaches.onRun
  have inRange := onRun.machine_inRange assembled (Machine.inRange_start _ _)
  have funds : Balanced user balance (start r p inputs) initial := ⟨payer, balance, funded, rfl⟩
  obtain ⟨payer, left, available, sum⟩ := course.balanced funds
  refine ⟨left, available, by rw [← spent_eq, sum], ?_, ?_,
    fun atStart => back_of_atStart atStart _, ?_⟩
  · intro e after failed
    refine ⟨?_, balances?_of_forward_error failed, fun immediate events now => ?_⟩
    · simp [perform, failed]
    · exact play_alike (balances?_of_forward_error failed) immediate now
  · intro halted
    exact onRun.forward_of_halted ((isRunning_current s).symm.trans halted) ledger
  · intro t after running moved
    exact onRun.cost_of_forward payer available inRange ((isRunning_current s).symm.trans running)
      (forward_of_run moved)

/-- A session on `moving` that spends five credits and can then go on with three more. -/
theorem credits_follow_position_moving :
    let r : Run := { evaluator := { functions := ∅, stepLimit := 10 }, payer? := some "u" }
    let initial := Ledger.empty.deposit "u" 5
    initial.balance? "u" = some 5 ∧
      ∃ s ledger, Course "u" (start r moving [2]) initial s ledger 3 ∧ s.past.length = 4 ∧
        ∃ left, ledger.balance? "u" = some left ∧
          left + ((s.log.take s.past.length).map Prod.snd).sum = 5 + 3 := by
  intro r initial
  have funded : initial.balance? "u" = some 5 := by decide +kernel
  have ended : ((start r moving [2]).perform (.resume []) initial).map
      (fun t => (t.1.1.past.length, t.2.balance? "u")) = some (4, some 0) := by
    decide +kernel
  obtain ⟨⟨⟨t, failure?⟩, after⟩, ran, eq⟩ := Option.map_eq_some_iff.1 ended
  obtain ⟨position, left⟩ := Prod.mk.inj eq
  have course : Course "u" (start r moving [2]) initial t (after.deposit "u" 3) (0 + 3) := by
    refine .deposit (.move .begin (fun back => by cases back) ran) fun rest balance => ?_
    have empty := left.symm.trans balance
    cases empty
    decide
  obtain ⟨left, balance, sum, -⟩ :=
    credits_follow_position r assembled_moving [2] rfl funded course
  exact ⟨funded, t, _, course, position, left, balance, sum⟩

end Session

end SLanguage
