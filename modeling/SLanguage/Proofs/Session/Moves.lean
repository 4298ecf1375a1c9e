import SLanguage.Proofs.Metering
import SLanguage.Session

/-! Moves of a debugging session, in any order. A move that fails leaves a reason, and
the session that it leaves is part of what it answers. What the ledger holds before a
move is left open, since others may use it in between. -/

namespace SLanguage

namespace Session

inductive Move where
  | forward
  | back
  | resume (breakpoints : List Nat)
  | stop
  /-- Sets or clears the signal, or makes an appointment for it. -/
  | signal (signal : Signal)

/-- Makes a move. Only going forward and resuming can fail. -/
def perform (s : Session) : Move → Billing (Session × Option RunError)
  | .forward => fun ledger =>
    (s.forward.run ledger).map fun
      | (.ok t, ledger) => ((t, none), ledger)
      | (.error e, ledger) => ((s, some e), ledger)
  | .back => fun ledger => some (((s.back ledger).1, none), (s.back ledger).2)
  | .resume breakpoints => s.resume breakpoints
  | .stop => fun ledger => some ((s.stop, none), ledger)
  | .signal signal => fun ledger => some (({ s with signal }, none), ledger)

/-- The sessions that moves lead to, failing ones among them, whatever the ledger holds
before each of them. -/
inductive Reaches (s : Session) : Session → Prop
  | refl : Reaches s s
  | move {t u : Session} {m : Move} {failure? : Option RunError} {before after : Ledger} :
    Reaches s t → t.perform m before = some ((u, failure?), after) → Reaches s u

/-- What the next step of the run answers. -/
def nextStep (s : Session) : Option (Except RunError (Option Visit)) :=
  (s.machine.step (s.evaluator.answerAt 0) s.program).run

/-- Pays for a step that leads to a session. -/
def payFor (s : Session) (v : Visit) (t : Session) (ledger : Ledger) :
    Except RunError Session × Ledger :=
  let (paid, ledger) := Metered.bill s.payer? v.cost ledger
  ((paid.mapError .credits).map fun _ => t, ledger)

theorem run_pay (s t : Session) (v : Visit) (ledger : Ledger) :
    (do s.pay v.cost; return t : Metered RunError Session).run ledger =
      some (s.payFor v t ledger) := by
  rw [Keeping.run_bind, pay, Metered.run_adapt, Metered.run_pay]
  simp only [Option.map_some, payFor]
  cases (Metered.bill s.payer? v.cost ledger).1 <;> rfl

theorem run_forward_replay {s : Session} {v : Visit} {rest : List Visit}
    (known : s.future = v :: rest) (ledger : Ledger) :
    s.forward.run ledger =
      some (s.payFor v { s with past := v :: s.past, future := rest }.arrived ledger) := by
  unfold forward
  rw [known]
  exact run_pay _ _ _ _

theorem run_forward_fresh {s : Session} (unknown : s.future = []) (ledger : Ledger) :
    s.forward.run ledger =
      match s.nextStep with
      | none => none
      | some (.error e) => some (.error e, ledger)
      | some (.ok none) => some (.ok { s with state := .finished }, ledger)
      | some (.ok (some v)) => some (s.payFor v { s with past := v :: s.past }.arrived ledger) := by
  unfold forward
  rw [unknown]
  simp only [Keeping.run_bind, Metered.run_ofAttempt]
  unfold nextStep
  cases (s.machine.step (s.evaluator.answerAt 0) s.program).run with
  | none => rfl
  | some r =>
    obtain e | visit? := r
    · rfl
    · cases visit? with
      | none => rfl
      | some v => exact run_pay _ _ _ _

/-- A session goes forward in three ways: over a step that it knows, not at all because
no step is left, or over a new step. -/
inductive Forward (s : Session) (before : Ledger) : Session → Ledger → Prop
  | replayed {v : Visit} {rest : List Visit} {after : Ledger} :
    s.future = v :: rest → Metered.bill s.payer? v.cost before = (.ok (), after) →
    Forward s before { s with past := v :: s.past, future := rest }.arrived after
  | halted : s.future = [] → s.nextStep = some (.ok none) →
    Forward s before { s with state := .finished } before
  | executed {v : Visit} {after : Ledger} :
    s.future = [] → s.nextStep = some (.ok (some v)) →
    Metered.bill s.payer? v.cost before = (.ok (), after) →
    Forward s before { s with past := v :: s.past }.arrived after

theorem Forward.payer? {s t : Session} {before after : Ledger}
    (moved : Forward s before t after) : t.payer? = s.payer? := by
  cases moved <;> rfl

theorem payer?_back (s : Session) (ledger : Ledger) : (s.back ledger).1.payer? = s.payer? := by
  unfold back
  split <;> rfl

theorem payFor_ok {s t u : Session} {v : Visit} {before after : Ledger}
    (h : s.payFor v t before = (.ok u, after)) :
    u = t ∧ Metered.bill s.payer? v.cost before = (.ok (), after) := by
  unfold payFor at h
  generalize Metered.bill s.payer? v.cost before = billed at h ⊢
  obtain ⟨paid, ledger⟩ := billed
  cases paid with
  | error c => cases h
  | ok =>
    cases h
    exact ⟨rfl, rfl⟩

theorem payFor_error {s t : Session} {v : Visit} {before after : Ledger} {e : RunError}
    (h : s.payFor v t before = (.error e, after)) :
    ∃ c, Metered.bill s.payer? v.cost before = (.error c, after) := by
  unfold payFor at h
  generalize Metered.bill s.payer? v.cost before = billed at h ⊢
  obtain ⟨paid, ledger⟩ := billed
  cases paid with
  | ok => cases h
  | error c =>
    cases h
    exact ⟨c, rfl⟩

theorem forward_of_run {s t : Session} {before after : Ledger}
    (h : s.forward.run before = some (.ok t, after)) : Forward s before t after := by
  cases future : s.future with
  | cons v rest =>
    rw [run_forward_replay future, Option.some_inj] at h
    obtain ⟨rfl, paid⟩ := payFor_ok h
    exact .replayed future paid
  | nil =>
    rw [run_forward_fresh future] at h
    cases next : s.nextStep with
    | none => simp [next] at h
    | some r =>
      obtain e | visit? := r
      · simp [next] at h
      · cases visit? with
        | none =>
          simp only [next, Option.some.injEq, Prod.mk.injEq, Except.ok.injEq] at h
          obtain ⟨rfl, rfl⟩ := h
          exact .halted future next
        | some v =>
          simp only [next, Option.some.injEq] at h
          obtain ⟨rfl, paid⟩ := payFor_ok h
          exact .executed future next paid

/-- Going forward fails because the instruction does, or because it cannot be paid. -/
theorem bill_of_forward_error {s : Session} {before after : Ledger} {e : RunError}
    (h : s.forward.run before = some (.error e, after)) :
    after = before ∨ ∃ amount c, Metered.bill s.payer? amount before = (.error c, after) := by
  cases future : s.future with
  | cons v rest =>
    rw [run_forward_replay future, Option.some_inj] at h
    exact .inr ⟨v.cost, payFor_error h⟩
  | nil =>
    rw [run_forward_fresh future] at h
    cases next : s.nextStep with
    | none => simp [next] at h
    | some r =>
      obtain e | visit? := r
      · simp only [next, Option.some.injEq, Prod.mk.injEq] at h
        exact .inl h.2.symm
      · cases visit? with
        | none => simp [next] at h
        | some v =>
          simp only [next, Option.some.injEq] at h
          exact .inr ⟨v.cost, payFor_error h⟩

/-- Whether a resumed session goes no further than here. -/
def rests (s : Session) : Bool :=
  !s.machine.isRunning || s.atBreakpoint

/-- The session at rest. -/
def rested (s : Session) : Session :=
  { s with state := if s.machine.isRunning then .atBreakpoint else .finished }

/-- One round of a resumed session. -/
theorem advance_succ (n : Nat) (s : Session) (ledger : Ledger) :
    advance (n + 1) s ledger =
      if s.signal.isRaised ledger.charges then some ((s, some (.interrupted s.current)), ledger)
      else
        match s.forward.run ledger with
        | none => none
        | some (.error e, ledger) => some ((s, some e), ledger)
        | some (.ok u, ledger) =>
          if u.rests then some ((u.rested, none), ledger) else advance n u ledger := by
  rw [advance]
  refine ite_congr rfl (fun _ => rfl) fun _ => ?_
  cases s.forward.run ledger with
  | none => rfl
  | some moved =>
    obtain ⟨e | u, ledger⟩ := moved
    · rfl
    · cases running : u.machine.isRunning <;> cases here : u.atBreakpoint <;>
        simp [rests, rested, running, here]

theorem resume_eq_some {s t : Session} {breakpoints : List Nat} {failure? : Option RunError}
    {before after : Ledger} (h : s.resume breakpoints before = some ((t, failure?), after)) :
    ∃ u, advance s.evaluator.stepLimit { s with breakpoints := .ofList breakpoints } before =
        some ((u, failure?), after) ∧
      t = { u with signal := u.signal.clear after.charges } := by
  unfold resume at h
  simp only [bind, StateT.bind] at h
  cases ran : advance s.evaluator.stepLimit { s with breakpoints := .ofList breakpoints }
      before with
  | none =>
    rw [ran] at h
    cases h
  | some r =>
    obtain ⟨⟨u, reason?⟩, ledger⟩ := r
    rw [ran] at h
    cases h
    exact ⟨u, rfl, rfl⟩

/-- What every part of a move keeps, going back apart. A session that has moved of its own
comes to rest at a breakpoint only while its program is running. -/
structure Kept (P : Session → Ledger → Prop) : Prop where
  marks : ∀ {s ledger} breakpoints signal, P s ledger → P { s with breakpoints, signal } ledger
  rest : ∀ {s ledger} state, state = .finished ∨ state = .atBreakpoint ∧ s.machine.isRunning →
    P s ledger → P { s with state } ledger
  forward : ∀ {s t before after}, P s before → Forward s before t after → P t after
  failed : ∀ {s before after e}, P s before →
    s.forward.run before = some (.error e, after) → P s after

namespace Kept

variable {P : Session → Ledger → Prop} {s t : Session} {failure? : Option RunError}
  {before after : Ledger}

theorem advance (kept : Kept P) {rounds : Nat} (holds : P s before)
    (h : Session.advance rounds s before = some ((t, failure?), after)) : P t after := by
  induction rounds generalizing s before with
  | zero => cases h
  | succ n ih =>
    unfold Session.advance at h
    split at h
    · cases h
      exact holds
    · split at h
      · cases h
      · rename_i ran
        cases h
        exact kept.failed holds ran
      · rename_i u ledger ran
        have moved := kept.forward holds (forward_of_run ran)
        split at h
        · cases h
          exact kept.rest .finished (.inl rfl) moved
        · rename_i running
          split at h
          · cases h
            exact kept.rest .atBreakpoint (.inr ⟨rfl, by simpa using running⟩) moved
          · exact ih moved h

theorem resume (kept : Kept P) {breakpoints : List Nat} (holds : P s before)
    (h : s.resume breakpoints before = some ((t, failure?), after)) : P t after := by
  obtain ⟨u, ran, rfl⟩ := resume_eq_some h
  exact kept.marks u.breakpoints _ (kept.advance (kept.marks _ s.signal holds) ran)

theorem perform (kept : Kept P) {move : Move} (holds : P s before)
    (back : move = .back → P (s.back before).1 (s.back before).2)
    (h : s.perform move before = some ((t, failure?), after)) : P t after := by
  cases move with
  | forward =>
    obtain ⟨⟨outcome, ledger⟩, ran, eq⟩ := Option.map_eq_some_iff.1 h
    obtain e | u := outcome
    · cases eq
      exact kept.failed holds ran
    · cases eq
      exact kept.forward holds (forward_of_run ran)
  | back =>
    cases h
    exact back rfl
  | resume breakpoints => exact kept.resume holds h
  | stop =>
    cases h
    exact kept.rest .finished (.inl rfl) holds
  | signal signal =>
    cases h
    exact kept.marks s.breakpoints signal holds

end Kept

end Session

end SLanguage
