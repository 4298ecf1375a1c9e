import SLanguage.Proofs.Payment
import SLanguage.Proofs.Session.Cursor

/-! Rounds of a resumed session. In each of them it goes one step forward, and it does not matter
to the step whether it is known, how many more steps its calls may take, or which breakpoints are
set. -/

namespace SLanguage

namespace Machine

variable {answering answering' : Answering} {p : Program} {m last : Machine}

theorem nth?_of_extends (more : answering.Extends answering') {k : Nat} {v : Visit}
    (made : m.nth? answering p k = some v) : m.nth? answering' p k = some v := by
  induction k generalizing v with
  | zero => exact visit?_eq_some_iff.2 (more.step (visit?_eq_some_iff.1 made))
  | succ k ih =>
    obtain ⟨u, before, next⟩ := Option.bind_eq_some_iff.1 made
    exact Option.bind_eq_some_iff.2
      ⟨u, ih before, visit?_eq_some_iff.2 (more.step (visit?_eq_some_iff.1 next))⟩

/-- The machine after so many steps, if they can be made. -/
def after? (answering : Answering) (p : Program) (m : Machine) : Nat → Option Machine
  | 0 => some m
  | k + 1 => (m.nth? answering p k).map Visit.after

theorem after?_succ (k : Nat) : m.after? answering p (k + 1) =
    (m.after? answering p k).bind fun m => (m.visit? answering p).map Visit.after := by
  cases k with
  | zero => rfl
  | succ k =>
    rw [after?, after?, nth?]
    cases m.nth? answering p k <;> rfl

theorem exists_after?_of_le {k n : Nat} (le : k ≤ n) (made : m.after? answering p n = some last) :
    ∃ mid, m.after? answering p k = some mid := by
  induction n generalizing last with
  | zero =>
    obtain rfl : k = 0 := Nat.le_zero.1 le
    exact ⟨last, made⟩
  | succ n ih =>
    by_cases same : k = n + 1
    · exact ⟨last, same ▸ made⟩
    · rw [after?_succ] at made
      obtain ⟨mid, before, -⟩ := Option.bind_eq_some_iff.1 made
      exact ih (by omega) before

/-- The machine has halted, or one of these instructions runs next. -/
def StopsAt (breakpoints : List Nat) (m : Machine) : Prop :=
  m.isRunning = false ∨ ∃ k ∈ breakpoints, m.next? = some k

/-- Of the places after one place of the run, this is the first to stop at. -/
structure FirstStop (answering : Answering) (p : Program) (first : Machine)
    (breakpoints : List Nat) (k q : Nat) : Prop where
  later : k < q
  stops : ∃ m, first.after? answering p q = some m ∧ m.StopsAt breakpoints
  least : ∀ j m, k < j → j < q → first.after? answering p j = some m → ¬ m.StopsAt breakpoints

theorem after?_of_extends (more : answering.Extends answering') {k : Nat}
    (made : m.after? answering p k = some last) : m.after? answering' p k = some last := by
  cases k with
  | zero => exact made
  | succ k =>
    obtain ⟨v, step, eq⟩ := Option.map_eq_some_iff.1 made
    exact Option.map_eq_some_iff.2 ⟨v, nth?_of_extends more step, eq⟩

namespace FirstStop

variable {first : Machine} {breakpoints : List Nat} {k q q' : Nat}

theorem of_extends (stop : first.FirstStop answering p breakpoints k q)
    (more : answering.Extends answering') : first.FirstStop answering' p breakpoints k q := by
  obtain ⟨last, reached, stops⟩ := stop.stops
  refine ⟨stop.later, ⟨last, after?_of_extends more reached, stops⟩, fun j m gt lt at_j => ?_⟩
  obtain ⟨mid, before⟩ := exists_after?_of_le (Nat.le_of_lt lt) reached
  cases at_j.symm.trans (after?_of_extends more before)
  exact stop.least j m gt lt before

theorem unique (stop : first.FirstStop answering p breakpoints k q)
    (stop' : first.FirstStop answering p breakpoints k q') : q = q' := by
  obtain ⟨m, reached, stops⟩ := stop.stops
  obtain ⟨m', reached', stops'⟩ := stop'.stops
  by_contra ne
  obtain lt | gt := Nat.lt_or_gt_of_ne ne
  · exact stop'.least q m stop.later lt reached stops
  · exact stop.least q' m' stop'.later gt reached' stops'

end FirstStop

end Machine

namespace Session

variable {r : Run} {p : Program} {first : Machine} {s t u : Session}
  {before between after : Ledger} {breakpoints : List Nat} {failure? : Option RunError}

/-- The session with so many steps for every machine. -/
def within (s : Session) (stepLimit : Nat) : Session :=
  { s with evaluator := { s.evaluator with stepLimit } }

/-- The session with these breakpoints. -/
def marked (s : Session) (breakpoints : Std.TreeSet Nat) : Session :=
  { s with breakpoints }

theorem payFor_map {v : Visit} (f : Session → Session) (payer : (f s).payer? = s.payer?)
    (ledger : Ledger) : (f s).payFor v (f t) ledger =
      ((s.payFor v t ledger).1.map f, (s.payFor v t ledger).2) := by
  simp only [payFor, payer]
  obtain ⟨_ | _, left⟩ := Metered.bill s.payer? v.cost ledger <;> rfl

/-- Sessions that differ in what does not matter to a step go forward alike. -/
theorem forward_map (f : Session → Session) (future : (f s).future = s.future)
    (payer : (f s).payer? = s.payer?)
    (next : ∀ y, s.nextStep = some y → (f s).nextStep = some y)
    (moved : ∀ past future, f { s with past, future }.arrived = { f s with past, future }.arrived)
    (past : (f s).past = s.past)
    (finished : f { s with state := .finished } = { f s with state := .finished })
    {x : Except RunError Session} (ran : s.forward.run before = some (x, after)) :
    (f s).forward.run before = some (x.map f, after) := by
  cases known : s.future with
  | cons v rest =>
    rw [run_forward_replay known] at ran
    rw [run_forward_replay (future.trans known), past, ← moved, payFor_map f payer,
      Option.some.inj ran]
  | nil =>
    rw [run_forward_fresh known] at ran
    rw [run_forward_fresh (future.trans known)]
    cases step : s.nextStep with
    | none =>
      rw [step] at ran
      cases ran
    | some y =>
      rw [step] at ran
      rw [next y step]
      obtain e | v? := y
      · cases ran
        rfl
      · cases v? with
        | none =>
          cases ran
          exact congrArg (fun t => some (Except.ok t, before)) finished.symm
        | some v =>
          have same : { f s with past := v :: (f s).past }.arrived =
              f { s with past := v :: s.past }.arrived := by
            have here := moved (v :: s.past) s.future
            rw [past, here]
            congr 1
            rw [← future]
          simp only [same, payFor_map f payer, Option.some.inj ran]

theorem forward_within {limit : Nat} (le : s.evaluator.stepLimit ≤ limit)
    {x : Except RunError Session} (ran : s.forward.run before = some (x, after)) :
    (s.within limit).forward.run before = some (x.map fun t => t.within limit, after) :=
  forward_map (fun t => t.within limit) rfl rfl (fun _ => (s.toRun.extends_of_le le).step)
    (fun _ _ => rfl) rfl rfl ran

theorem forward_marked (breakpoints : Std.TreeSet Nat) {x : Except RunError Session}
    (ran : s.forward.run before = some (x, after)) :
    (s.marked breakpoints).forward.run before =
      some (x.map fun t => t.marked breakpoints, after) :=
  forward_map (fun t => t.marked breakpoints) rfl rfl (fun _ same => same) (fun _ _ => rfl) rfl
    rfl ran

/-- Going forward takes no notice of breakpoints. -/
theorem run_forward_marked (s : Session) (breakpoints : Std.TreeSet Nat) (ledger : Ledger) :
    (s.marked breakpoints).forward.run ledger =
      (s.forward.run ledger).map fun (x, ledger) =>
        (x.map fun t => t.marked breakpoints, ledger) := by
  cases ran : s.forward.run ledger with
  | some moved => exact forward_marked breakpoints ran
  | none =>
    cases ran' : (s.marked breakpoints).forward.run ledger with
    | none => rfl
    | some moved =>
      have back := forward_marked (s := s.marked breakpoints) s.breakpoints ran'
      cases ran.symm.trans back

theorem Forward.evaluator (moved : Forward s before t after) : t.evaluator = s.evaluator := by
  cases moved <;> rfl

/-- What a session does of its own it also does with more rounds and more steps for calls. -/
theorem advance_within {n n' limit : Nat} (fewer : n ≤ n') (le : s.evaluator.stepLimit ≤ limit)
    (ran : advance n s before = some ((t, failure?), after)) :
    advance n' (s.within limit) before = some ((t.within limit, failure?), after) := by
  induction n generalizing n' s before with
  | zero => cases ran
  | succ n ih =>
    obtain ⟨n', rfl⟩ : ∃ k, n' = k + 1 := ⟨n' - 1, by omega⟩
    rw [advance_succ] at ran ⊢
    split at ran
    · rename_i raised
      cases ran
      exact if_pos raised
    · rename_i quiet
      refine (if_neg quiet).trans ?_
      split at ran
      · cases ran
      · rename_i failed
        cases ran
        rw [forward_within le failed]
        rfl
      · rename_i u ledger moved
        rw [forward_within le moved]
        split at ran
        · rename_i rests
          cases ran
          exact if_pos rests
        · rename_i passes
          have same := (forward_of_run moved).evaluator
          exact (if_neg passes).trans (ih (by omega) (same ▸ le) ran)

/-- Nothing but a step forward happens in a round without a signal. -/
theorem advance_marked (signal : s.signal = {}) (n : Nat) (breakpoints : Std.TreeSet Nat)
    (ledger : Ledger) : advance (n + 1) (s.marked breakpoints) ledger =
      match s.forward.run ledger with
      | none => none
      | some (.error e, ledger) => some ((s.marked breakpoints, some e), ledger)
      | some (.ok u, ledger) =>
        if (u.marked breakpoints).rests then some (((u.marked breakpoints).rested, none), ledger)
        else advance n (u.marked breakpoints) ledger := by
  have quiet : (s.marked breakpoints).signal.isRaised ledger.charges = false := by
    change s.signal.isRaised ledger.charges = false
    rw [signal]
    rfl
  rw [advance_succ, quiet, run_forward_marked]
  cases s.forward.run ledger with
  | none => rfl
  | some moved =>
    obtain ⟨_ | _, _⟩ := moved <;> rfl

theorem rests_marked_iff : (s.marked (.ofList breakpoints)).rests = true ↔
    s.machine.StopsAt breakpoints := by
  have here : (s.marked (.ofList breakpoints)).machine = s.machine := rfl
  rw [rests, atBreakpoint, here, Bool.or_eq_true, Bool.not_eq_true', Machine.StopsAt]
  refine or_congr_right ?_
  simp [marked, Option.any_eq_true, and_comm]

namespace OnRun

/-- A session that goes on with more steps for calls is still on the run. -/
theorem within (h : s.OnRun r p first) {limit : Nat} (le : r.evaluator.stepLimit ≤ limit) :
    (s.within limit).OnRun (r.within limit) p first where
  evaluator := congrArg (fun ev : Evaluator => { ev with stepLimit := limit }) h.evaluator
  payer? := h.payer?
  program := h.program
  origin := h.origin
  history k lt := by
    have known : s.history[k]? = some s.history[k] := List.getElem?_eq_getElem lt
    have made := (h.history k lt).symm.trans known
    exact known.trans (Machine.nth?_of_extends (r.extends_of_le le) made).symm

theorem after?_position (h : s.OnRun r p first) :
    first.after? (r.evaluator.answerAt 0) p s.past.length = some s.machine := by
  cases past : s.past with
  | nil =>
    rw [machine, past]
    exact congrArg some h.origin.symm
  | cons v rest =>
    have made := h.head?_eq (k := rest.length) (by simp [past])
    rw [past, List.head?_cons] at made
    rw [List.length_cons, Machine.after?, ← made, machine, past]
    rfl

/-- The steps behind a session are known from its position. -/
theorem past_eq (h : s.OnRun r p first) (h' : u.OnRun r p first)
    (position : u.past.length = s.past.length) : u.past = s.past := by
  have behind {s : Session} (h : s.OnRun r p first) (k : Nat) (lt : k < s.past.length) :
      s.past.reverse[k]? = first.nth? (r.evaluator.answerAt 0) p k := by
    rw [← h.history k (by simp [Session.history]; omega), Session.history,
      List.getElem?_append_left (by simpa using lt)]
  refine List.reverse_injective (List.ext_getElem? fun k => ?_)
  by_cases lt : k < s.past.length
  · rw [behind h k lt, behind h' k (position ▸ lt)]
  · rw [List.getElem?_eq_none (by simp; omega), List.getElem?_eq_none (by simp; omega)]

end OnRun

/-- The session after a step, be it known or new. -/
def passed (s : Session) (v : Visit) : Session :=
  { s with past := v :: s.past, future := s.future.tail }.arrived

/-- A step that is known is made again as if it were new. -/
theorem OnRun.run_forward (h : s.OnRun r p first) (ledger : Ledger) :
    s.forward.run ledger =
      match s.nextStep with
      | none => none
      | some (.error e) => some (.error e, ledger)
      | some (.ok none) => some (.ok { s with state := .finished }, ledger)
      | some (.ok (some v)) => some (s.payFor v (s.passed v) ledger) := by
  cases future : s.future with
  | nil =>
    rw [run_forward_fresh future]
    unfold passed
    rw [future]
    rfl
  | cons v rest =>
    have known : s.history[s.past.length]? = some v := by simp [Session.history, future]
    have lt : s.past.length < s.history.length := (List.getElem?_eq_some_iff.1 known).1
    rw [h.history _ lt, h.nth?_position, Machine.visit?_eq_some_iff, ← h.evaluator,
      ← h.program] at known
    rw [run_forward_replay future, nextStep, known]
    unfold passed
    rw [future]
    rfl

theorem OnRun.marked (h : s.OnRun r p first) (breakpoints : Std.TreeSet Nat) :
    (s.marked breakpoints).OnRun r p first :=
  ⟨h.evaluator, h.payer?, h.program, h.origin, h.history⟩

theorem OnRun.rested (h : s.OnRun r p first) : s.rested.OnRun r p first :=
  ⟨h.evaluator, h.payer?, h.program, h.origin, h.history⟩

/-- Two sessions at one place of one run, which differ in the steps that they know and in their
state. -/
structure Alongside (s u : Session) (r : Run) (p : Program) (first : Machine) : Prop where
  onRun : s.OnRun r p first
  onRun' : u.OnRun r p first
  past : u.past = s.past
  signal : u.signal = s.signal
  breakpoints : u.breakpoints = s.breakpoints

namespace Alongside

theorem machine (along : s.Alongside u r p first) : u.machine = s.machine := by
  rw [Session.machine, along.past, along.onRun'.origin, ← along.onRun.origin]
  rfl

theorem current (along : s.Alongside u r p first) : u.current = s.current := by
  rw [Session.current, along.past, Session.current]
  cases s.past.head? with
  | none =>
    rw [snapshotAfter, snapshotAfter, along.onRun'.origin, along.onRun.origin,
      along.onRun'.program, along.onRun.program]
  | some v => rw [snapshotAfter, snapshotAfter, along.onRun'.program, along.onRun.program]

theorem nextStep (along : s.Alongside u r p first) : u.nextStep = s.nextStep := by
  rw [Session.nextStep, Session.nextStep, along.machine, along.onRun'.evaluator,
    along.onRun.evaluator, along.onRun'.program, along.onRun.program]

theorem payer? (along : s.Alongside u r p first) : u.payer? = s.payer? :=
  along.onRun'.payer?.trans along.onRun.payer?.symm

theorem passed (along : s.Alongside u r p first) (v : Visit) :
    (u.passed v).past = (s.passed v).past ∧ (u.passed v).state = (s.passed v).state := by
  constructor
  · exact congrArg (v :: ·) along.past
  · rfl

theorem forward_error (along : s.Alongside u r p first) {e : RunError}
    (fails : s.forward.run before = some (.error e, after)) :
    u.forward.run before = some (.error e, after) := by
  rw [along.onRun.run_forward] at fails
  rw [along.onRun'.run_forward, along.nextStep]
  split at fails
  · cases fails
  · exact fails
  · cases fails
  · rename_i v _
    obtain ⟨c, bill⟩ := payFor_error (Option.some.inj fails)
    rw [payFor, bill] at fails
    rw [payFor, along.payer?, bill]
    exact fails

/-- Whether the next step is known to one of the two does not show. -/
theorem forward_ok (along : s.Alongside u r p first)
    (moved : s.forward.run before = some (.ok t, after)) :
    ∃ t', u.forward.run before = some (.ok t', after) ∧ t.Alongside t' r p first ∧
      t'.state = t.state := by
  have run := along.onRun'.run_forward before
  have onRun := along.onRun.forward (forward_of_run moved)
  rw [along.nextStep] at run
  rw [along.onRun.run_forward] at moved
  split at moved
  · cases moved
  · cases moved
  · rename_i still
    rw [still] at run
    cases moved
    exact ⟨_, run, ⟨onRun, along.onRun'.forward (forward_of_run run), along.past, along.signal,
      along.breakpoints⟩, rfl⟩
  · rename_i v step
    obtain ⟨rfl, bill⟩ := payFor_ok (Option.some.inj moved)
    have paid : u.payFor v (u.passed v) before = (.ok (u.passed v), after) := by
      rw [payFor, along.payer?, bill]
      rfl
    rw [step] at run
    have ran : u.forward.run before = some (.ok (u.passed v), after) :=
      run.trans (congrArg some paid)
    obtain ⟨past, state⟩ := along.passed v
    exact ⟨_, ran, ⟨onRun, along.onRun'.forward (forward_of_run ran), past, along.signal,
      along.breakpoints⟩, state⟩

theorem rests (along : s.Alongside u r p first) : u.rests = s.rests := by
  rw [Session.rests, Session.rests, atBreakpoint, atBreakpoint, along.machine, along.breakpoints]

/-- Sessions side by side do the same of their own. -/
theorem advance (along : s.Alongside u r p first) {n : Nat}
    (ran : Session.advance n s before = some ((t, failure?), after)) :
    ∃ t', Session.advance n u before = some ((t', failure?), after) ∧ t.Alongside t' r p first ∧
      (failure? = none → t'.state = t.state) := by
  induction n generalizing s u before with
  | zero => cases ran
  | succ n ih =>
    rw [advance_succ] at ran ⊢
    rw [along.signal, along.current]
    split at ran
    · rename_i raised
      cases ran
      exact ⟨u, if_pos raised, along, fun eq => by cases eq⟩
    · rename_i quiet
      rw [if_neg quiet]
      split at ran
      · cases ran
      · rename_i fails
        cases ran
        rw [along.forward_error fails]
        exact ⟨u, rfl, along, fun eq => by cases eq⟩
      · rename_i w between moved
        obtain ⟨w', moved', beside, -⟩ := along.forward_ok moved
        rw [moved']
        simp only [beside.rests]
        split at ran
        · rename_i rests
          cases ran
          rw [if_pos rests]
          refine ⟨_, rfl, ⟨beside.onRun.rested, beside.onRun'.rested, beside.past, beside.signal,
            beside.breakpoints⟩, fun _ => ?_⟩
          simp only [rested, beside.machine]
        · rename_i passes
          rw [if_neg passes]
          exact ih beside ran

end Alongside

theorem advance_keeps {n : Nat} (ran : advance n s before = some ((t, failure?), after)) :
    t.signal = s.signal ∧ t.evaluator = s.evaluator := by
  induction n generalizing s before with
  | zero => cases ran
  | succ n ih =>
    rw [advance_succ] at ran
    split at ran
    · cases ran
      exact ⟨rfl, rfl⟩
    · split at ran
      · cases ran
      · cases ran
        exact ⟨rfl, rfl⟩
      · rename_i u _ moved
        have same : u.signal = s.signal ∧ u.evaluator = s.evaluator := by
          cases forward_of_run moved <;> exact ⟨rfl, rfl⟩
        split at ran
        · cases ran
          exact same
        · obtain ⟨signal, evaluator⟩ := ih ran
          exact ⟨signal.trans same.1, evaluator.trans same.2⟩

end Session

end SLanguage
