import SLanguage.Proofs.Machine.InPlace
import SLanguage.Proofs.Session.Cursor
import SLanguage.Proofs.Session.Pairs

/-! Sessions as logs. A session may also be kept as the log of what its steps have shown and
cost, a pointer into that log, and one machine, which is written to and stands after the last
step that is logged. Going back only moves the pointer, going forward behind the end of the log
is read off it, and where a new step fails the machine is put back. A log answers every move as
the session that keeps the steps themselves. -/

namespace SLanguage

/-- A session that keeps what it has shown. -/
structure SessionLog extends Run where
  program : Program
  /-- The machine after the last entry. -/
  machine : Machine
  pristine : Snapshot
  entries : Array (Snapshot × Nat) := #[]
  /-- The entry that the session stands after, none before the first one. -/
  pointer? : Option Nat := none
  breakpoints : Std.TreeSet Nat := ∅
  state : SessionState := .notStarted

namespace SessionLog

def start (r : Run) (p : Program) (inputs : List Int64) : SessionLog :=
  let machine := Machine.ofInputs p inputs
  { r with program := p, machine, pristine := machine.snapshot p none }

/-- What is shown after an entry, or before the first one. -/
def shown (l : SessionLog) (logged? : Option (Snapshot × Nat)) : Snapshot :=
  (logged?.map Prod.fst).getD l.pristine

def current (l : SessionLog) : Snapshot :=
  l.shown (l.pointer?.bind fun k => l.entries[k]?)

def frontier (l : SessionLog) : Snapshot :=
  l.shown l.entries.back?

/-- The entry that comes next. -/
def place (l : SessionLog) : Nat :=
  match l.pointer? with
  | none => 0
  | some k => k + 1

/-- The log after a move to an entry. -/
def settle (l : SessionLog) (pointer? : Option Nat) (shown : Snapshot) : SessionLog :=
  { l with pointer?, state := if shown.isRunning then .stepping else .finished }

/-- Work on a log and a ledger, which are kept where it fails. -/
abbrev Work (α : Type) := Keeping (SessionLog × Ledger) RunError α

namespace Work

variable {α : Type}

def log : Work SessionLog :=
  return (← get).1

def update (f : SessionLog → SessionLog) : Work Unit :=
  modify fun (l, ledger) => (f l, ledger)

def pay (amount : Nat) : Work Unit :=
  ExceptT.mk fun (l, ledger) =>
    let (paid, ledger) := Metered.bill l.payer? amount ledger
    some (paid.mapError .credits, l, ledger)

def refund (amount : Nat) : Work Unit :=
  modify fun (l, ledger) => (l, Metered.refund l.payer? amount ledger)

def onMachine (x : Machine.InPlace α) : Work α :=
  ExceptT.mk fun (l, ledger) =>
    (x.run l.machine).map fun (outcome, machine) => (outcome, { l with machine }, ledger)

def unfinished : Work α :=
  ExceptT.mk fun _ => none

/-- Puts a machine back where the work fails. -/
def restoring (machine : Machine) (x : Work α) : Work α :=
  tryCatch x fun e => do
    update fun l => { l with machine }
    throw e

end Work

open Work (log update)

/-- Ends the session, and shows the last entry. -/
def halt : Work Snapshot := do
  update fun l => { l with state := .finished }
  return (← log).frontier

/-- Makes a new step on the machine, pays for it and logs it. -/
def execute (answering : Answering) : Work Snapshot := do
  match ← Work.onMachine (Machine.stepInPlace answering (← log).program) with
  | none => halt
  | some (index, cost) => do
    Work.pay cost
    let l ← log
    let shown := l.machine.snapshot l.program (some index)
    update fun l => { l with entries := l.entries.push (shown, cost) }.settle (some l.place) shown
    return shown

def stepOver : Work Snapshot := do
  let l ← log
  match l.entries[l.place]? with
  | some (shown, cost) => do
    Work.pay cost
    update fun l => l.settle (some l.place) shown
    return shown
  | none =>
    if l.machine.isRunning then Work.restoring l.machine (execute (l.evaluator.answerAt 0))
    else halt

def stepBack : Work Snapshot := do
  let l ← log
  match l.pointer? with
  | none => return l.pristine
  | some k => do
    if let some (_, cost) := l.entries[k]? then Work.refund cost
    let pointer? := if k = 0 then none else some (k - 1)
    let shown := l.shown (pointer?.bind fun k => l.entries[k]?)
    update fun l => l.settle pointer? shown
    return shown

def rest (state : SessionState) (shown : Snapshot) : Work Snapshot := do
  update fun l => { l with state }
  return shown

/-- Steps over until there is a reason to rest, which is read off what is shown. -/
def runOn : Nat → Work Snapshot
  | 0 => Work.unfinished
  | n + 1 => do
    let (l, ledger) ← get
    if l.signal.isRaised ledger.charges then throw (.interrupted l.current)
    else do
      let shown ← stepOver
      let l ← log
      if !shown.isRunning then rest .finished shown
      else if shown.next?.any fun k => l.breakpoints.contains k.toNat then
        rest .atBreakpoint shown
      else runOn n

/-- The signal is cleared however the log comes to rest. -/
def resume (breakpoints : List Nat) : Work Snapshot := do
  update fun l => { l with breakpoints := .ofList breakpoints }
  let l ← log
  ExceptT.mk fun kept =>
    ((runOn l.evaluator.stepLimit).run kept).map fun (outcome, l, ledger) =>
      (outcome, { l with signal := l.signal.clear ledger.charges }, ledger)

/-- Makes a move. A signal that is set answers with what is shown. -/
def perform : Session.Move → Work Snapshot
  | .forward => stepOver
  | .back => stepBack
  | .resume breakpoints => resume breakpoints
  | .stop => halt
  | .signal signal => do
    update fun l => { l with signal }
    return (← log).current

/-- The answers to the moves among some events, in order, each with the log after it. -/
def play : List Session.Event → SessionLog → Ledger →
    Option (List (Except RunError Snapshot × SessionLog) × Ledger)
  | [], _, ledger => some ([], ledger)
  | .move m :: later, l, ledger =>
    ((perform m).run (l, ledger)).bind fun (outcome, l, ledger) =>
      (play later l ledger).map fun (answers, ledger) => ((outcome, l) :: answers, ledger)
  | .deposit user amount :: later, l, ledger => play later l (ledger.deposit user amount)

section Runs

variable {α : Type} (l : SessionLog) (ledger : Ledger)

theorem run_log : log.run (l, ledger) = some (.ok l, l, ledger) := rfl

theorem run_pay (amount : Nat) : (Work.pay amount).run (l, ledger) =
    let (paid, ledger) := Metered.bill l.payer? amount ledger
    some (paid.mapError .credits, l, ledger) := rfl

theorem run_refund (amount : Nat) : (Work.refund amount).run (l, ledger) =
    some (.ok (), l, Metered.refund l.payer? amount ledger) := rfl

theorem run_onMachine (x : Machine.InPlace α) : (Work.onMachine x).run (l, ledger) =
    (x.run l.machine).map fun (outcome, machine) => (outcome, { l with machine }, ledger) := rfl

theorem run_restoring (machine : Machine) (x : Work α) :
    (Work.restoring machine x).run (l, ledger) =
      match x.run (l, ledger) with
      | some (.error e, l, ledger) => some (.error e, { l with machine }, ledger)
      | outcome => outcome := by
  rw [Work.restoring, Keeping.run_tryCatch]
  obtain _ | ⟨e | a, l, ledger⟩ := x.run (l, ledger) <;> rfl

theorem run_halt : halt.run (l, ledger) =
    some (.ok l.frontier, { l with state := .finished }, ledger) := rfl

end Runs

end SessionLog

namespace Session

/-- The log of a session. -/
def toLog (s : Session) : SessionLog where
  toRun := s.toRun
  program := s.program
  machine := (s.history.getLast?.map Visit.after).getD s.origin
  pristine := s.atStart
  entries := s.log.toArray
  pointer? := if s.past.length = 0 then none else some (s.past.length - 1)
  breakpoints := s.breakpoints
  state := s.state

/-- What a session that has moved is seen to do, and its log. -/
def seen (s : Session) : Except RunError Session × Ledger →
    Except RunError Snapshot × SessionLog × Ledger
  | (.error e, ledger) => (.error e, s.toLog, ledger)
  | (.ok t, ledger) => (.ok t.current, t.toLog, ledger)

section Log

variable (s : Session)

theorem place_toLog : s.toLog.place = s.past.length := by
  unfold SessionLog.place toLog
  cases s.past <;> rfl

/-- The step that the session went back over is the next entry. -/
theorem entries_place_toLog : s.toLog.entries[s.past.length]? =
    s.future.head?.map fun v => (s.snapshotAfter (some v), v.cost) := by
  unfold toLog log history
  rw [List.getElem?_toArray, List.getElem?_map, List.getElem?_append_right (by simp)]
  simp [List.head?_eq_getElem?]

theorem shown_toLog (v? : Option Visit) :
    s.toLog.shown (v?.map fun v => (s.snapshotAfter (some v), v.cost)) = s.snapshotAfter v? := by
  cases v? <;> rfl

theorem current_toLog : s.toLog.current = s.current := by
  rw [current, ← shown_toLog, head?_past]
  unfold SessionLog.current toLog
  split
  · rfl
  · simp [log]

theorem frontier_toLog : s.toLog.frontier = s.last := by
  rw [last, ← shown_toLog]
  unfold SessionLog.frontier toLog log
  simp [List.getLast?_map]

variable {s}

theorem machine_toLog (frontier : s.future = []) : s.toLog.machine = s.machine := by
  unfold toLog machine history
  rw [frontier]
  cases s.past <;> simp

/-- A step that is known is made again by moving the pointer. -/
theorem toLog_replayed {v : Visit} {rest : List Visit} (known : s.future = v :: rest) :
    { s with past := v :: s.past, future := rest }.arrived.toLog =
      s.toLog.settle (some s.past.length) (s.snapshotAfter (some v)) := by
  have same : { s with past := v :: s.past, future := rest }.arrived.history = s.history := by
    simp [arrived, history, known]
  unfold toLog log SessionLog.settle
  rw [same]
  rfl

theorem toLog_executed {v : Visit} (frontier : s.future = []) :
    { s with past := v :: s.past }.arrived.toLog =
      { s.toLog with
        machine := v.after
        entries := s.toLog.entries.push (s.snapshotAfter (some v), v.cost) }.settle
          (some s.past.length) (s.snapshotAfter (some v)) := by
  have grown : { s with past := v :: s.past }.arrived.history = s.history ++ [v] := by
    simp [arrived, history, frontier]
  have logged : { s with past := v :: s.past }.arrived.log =
      s.log ++ [(s.snapshotAfter (some v), v.cost)] := by
    rw [log, grown, List.map_append]
    rfl
  unfold toLog SessionLog.settle
  rw [grown, logged, List.getLast?_concat, ← List.push_toArray]
  rfl

theorem run_stepOver_replay {v : Visit} {rest : List Visit} (known : s.future = v :: rest)
    (ledger : Ledger) :
    SessionLog.stepOver.run (s.toLog, ledger) = (s.forward.run ledger).map s.seen := by
  rw [run_forward_replay known, SessionLog.stepOver, Keeping.run_bind, SessionLog.run_log]
  simp only [place_toLog, entries_place_toLog, known, List.head?_cons, Option.map_some]
  have payer : s.toLog.payer? = s.payer? := rfl
  rw [Keeping.run_bind, SessionLog.run_pay, payer, payFor]
  generalize Metered.bill s.payer? v.cost ledger = billed
  obtain ⟨short | _, after⟩ := billed
  · rfl
  · change some (Except.ok _, s.toLog.settle (some s.toLog.place) _, after) = _
    rw [place_toLog, ← toLog_replayed known]
    rfl

theorem last_of_frontier (frontier : s.future = []) : s.last = s.current := by
  rw [last, current, history, frontier, List.append_nil, List.getLast?_reverse]

/-- A step in place leaves the machine of the step, or the same machine where it fails. -/
theorem run_onMachine_toLog (assembled : s.program.Assembled)
    (inRange : s.machine.InRange s.program) (frontier : s.future = []) (ledger : Ledger) :
    (SessionLog.Work.onMachine (Machine.stepInPlace (s.evaluator.answerAt 0) s.program)).run
        (s.toLog, ledger) =
      s.nextStep.map fun
        | .error e => (.error e, s.toLog, ledger)
        | .ok none => (.ok none, s.toLog, ledger)
        | .ok (some v) =>
          (.ok (some (v.index, v.cost)), { s.toLog with machine := v.after }, ledger) := by
  have same : { s.toLog with machine := s.machine } = s.toLog := by
    rw [← machine_toLog frontier]
  rw [SessionLog.run_onMachine, machine_toLog frontier, Machine.run_stepInPlace assembled inRange,
    nextStep, Option.map_map]
  congr 1
  funext outcome
  obtain e | _ | v := outcome
  · exact congrArg (fun l => (Except.error e, l, ledger)) same
  · exact congrArg (fun l => (Except.ok none, l, ledger)) same
  · rfl

/-- No step is left after the last one that is known. -/
theorem run_halt_toLog (frontier : s.future = []) (ledger : Ledger) :
    SessionLog.halt.run (s.toLog, ledger) =
      some (s.seen (.ok { s with state := .finished }, ledger)) := by
  rw [SessionLog.run_halt, frontier_toLog, last_of_frontier frontier]
  rfl

/-- A new step is logged if it is made and paid for. If it is not paid for, the machine has
made it nevertheless. -/
theorem run_execute (assembled : s.program.Assembled) (inRange : s.machine.InRange s.program)
    (frontier : s.future = []) (ledger : Ledger) :
    (SessionLog.execute (s.evaluator.answerAt 0)).run (s.toLog, ledger) =
      s.nextStep.map fun
        | .error e => (.error e, s.toLog, ledger)
        | .ok none => s.seen (.ok { s with state := .finished }, ledger)
        | .ok (some v) =>
          match Metered.bill s.payer? v.cost ledger with
          | (.error short, ledger) =>
            (.error (.credits short), { s.toLog with machine := v.after }, ledger)
          | (.ok _, ledger) => s.seen (.ok { s with past := v :: s.past }.arrived, ledger) := by
  rw [SessionLog.execute, Keeping.run_bind, SessionLog.run_log]
  change (SessionLog.Work.onMachine (Machine.stepInPlace (s.evaluator.answerAt 0) s.program) >>=
    _).run (s.toLog, ledger) = _
  rw [Keeping.run_bind, run_onMachine_toLog assembled inRange frontier]
  obtain _ | e | _ | v := s.nextStep
  · rfl
  · rfl
  · exact run_halt_toLog frontier ledger
  · change (SessionLog.Work.pay v.cost >>= _).run ({ s.toLog with machine := v.after }, ledger) = _
    have payer : s.toLog.payer? = s.payer? := rfl
    rw [Keeping.run_bind, SessionLog.run_pay, payer]
    dsimp only [Option.map_some]
    generalize Metered.bill s.payer? v.cost ledger = billed
    obtain ⟨short | _, after⟩ := billed
    · rfl
    · have logged := toLog_executed (v := v) frontier
      rw [← place_toLog] at logged
      exact congrArg (fun l => some (Except.ok (s.snapshotAfter (some v)), l, after)) logged.symm

theorem run_stepOver_fresh (assembled : s.program.Assembled)
    (inRange : s.machine.InRange s.program) (frontier : s.future = []) (ledger : Ledger) :
    SessionLog.stepOver.run (s.toLog, ledger) = (s.forward.run ledger).map s.seen := by
  have entered : SessionLog.stepOver.run (s.toLog, ledger) =
      (if s.toLog.machine.isRunning then
        SessionLog.Work.restoring s.toLog.machine (SessionLog.execute (s.evaluator.answerAt 0))
      else SessionLog.halt).run (s.toLog, ledger) := by
    rw [SessionLog.stepOver, Keeping.run_bind, SessionLog.run_log]
    simp only [place_toLog, entries_place_toLog, frontier, List.head?_nil, Option.map_none]
    rfl
  rw [entered, run_forward_fresh frontier]
  split
  · rw [SessionLog.run_restoring, run_execute assembled inRange frontier]
    obtain _ | e | _ | v := s.nextStep
    · rfl
    · rfl
    · rfl
    · simp only [Option.map_some, payFor]
      generalize Metered.bill s.payer? v.cost ledger = billed
      obtain ⟨short | _, after⟩ := billed <;> rfl
  · rename_i halted
    have next : s.nextStep = some (.ok none) := by
      rw [machine_toLog frontier, Machine.isRunning, Bool.not_eq_true, Option.isSome_eq_false_iff,
        Option.isNone_iff_eq_none] at halted
      rw [nextStep, Machine.step_of_halted halted]
      rfl
    rw [next]
    exact run_halt_toLog frontier ledger

theorem run_stepOver (assembled : s.program.Assembled) (inRange : s.machine.InRange s.program)
    (ledger : Ledger) :
    SessionLog.stepOver.run (s.toLog, ledger) = (s.forward.run ledger).map s.seen := by
  cases future : s.future with
  | nil => exact run_stepOver_fresh assembled inRange future ledger
  | cons v rest => exact run_stepOver_replay future ledger

/-- The step before the session is the entry that the pointer is at. -/
theorem entries_past_toLog {v : Visit} {rest : List Visit} (past : s.past = v :: rest) :
    s.toLog.pointer? = some rest.length ∧
      s.toLog.entries[rest.length]? = some (s.snapshotAfter (some v), v.cost) := by
  constructor
  · rw [toLog, past]
    rfl
  · rw [toLog, log, history, past]
    simp

theorem toLog_back {v : Visit} {rest : List Visit} (past : s.past = v :: rest) (ledger : Ledger) :
    (s.back ledger).1.toLog =
      s.toLog.settle (if rest.length = 0 then none else some (rest.length - 1))
        (s.back ledger).1.current := by
  have same := history_back s ledger
  have shown := isRunning_current (s.back ledger).1
  unfold SessionLog.settle
  rw [shown]
  unfold back at same ⊢
  rw [past] at same ⊢
  unfold toLog log
  rw [same]
  rfl

theorem run_stepBack (ledger : Ledger) : SessionLog.stepBack.run (s.toLog, ledger) =
    some (s.seen (.ok (s.back ledger).1, (s.back ledger).2)) := by
  cases past : s.past with
  | nil =>
    have start : s.toLog.pointer? = none := by
      rw [toLog, past]
      rfl
    have stays : s.back ledger = (s, ledger) := by
      rw [back, past]
    rw [SessionLog.stepBack, Keeping.run_bind, SessionLog.run_log, stays]
    simp only [start]
    rw [seen, current, past]
    rfl
  | cons v rest =>
    obtain ⟨pointer, entry⟩ := entries_past_toLog past
    have kept := toLog_back past ledger
    have shown := current_toLog (s.back ledger).1
    rw [kept] at shown
    have refunded : (s.back ledger).2 = Metered.refund s.payer? v.cost ledger := by
      rw [back, past]
    rw [SessionLog.stepBack, Keeping.run_bind, SessionLog.run_log, seen, refunded]
    simp only [pointer, entry]
    rw [Keeping.run_bind, SessionLog.run_refund, kept, ← shown]
    rfl

end Log

/-- What is shown in answer to a move that has led to a session. -/
def Move.shown (m : Move) (t : Session) : Snapshot :=
  match m with
  | .stop => t.last
  | _ => t.current

def Move.outcome (m : Move) (a : Session × Option RunError) : Except RunError Snapshot :=
  match a.2 with
  | none => .ok (m.shown a.1)
  | some e => .error e

/-- The answer to a move, and the log after it. -/
def Move.answer (m : Move) (a : Session × Option RunError) :
    Except RunError Snapshot × SessionLog :=
  (m.outcome a, a.1.toLog)

def Move.told (m : Move) (a : (Session × Option RunError) × Ledger) :
    Except RunError Snapshot × SessionLog × Ledger :=
  (m.outcome a.1, a.1.1.toLog, a.2)

section OnRun

variable {r : Run} {p : Program} {first : Machine} {s : Session} (assembled : p.Assembled)
  (inRange : first.InRange p)

/-- The breakpoint is found in what is shown, where an index has 64 bits. -/
theorem atBreakpoint_shown (size : p.size ≤ UInt64.size) (inside : s.machine.InRange p) :
    (s.current.next?.any fun k => s.breakpoints.contains k.toNat) = s.atBreakpoint := by
  have next : s.current.next? = s.machine.next?.map UInt64.ofNat := by
    unfold current machine
    cases s.past <;> rfl
  rw [next, atBreakpoint]
  cases at_k : s.machine.next? with
  | none => rfl
  | some k =>
    have lt : k < UInt64.size := Nat.lt_of_lt_of_le (inside k at_k) size
    simp only [Option.map_some, Option.any_some, UInt64.toNat_ofNat_of_lt' lt]

include assembled inRange

theorem run_runOn (size : p.size ≤ UInt64.size) (rounds : Nat) (onRun : s.OnRun r p first)
    (ledger : Ledger) : (SessionLog.runOn rounds).run (s.toLog, ledger) =
      (s.advance rounds ledger).map (Move.resume []).told := by
  induction rounds generalizing s ledger with
  | zero => rfl
  | succ n ih =>
    rw [SessionLog.runOn, advance_succ]
    change (if s.signal.isRaised ledger.charges then _ else _ : SessionLog.Work Snapshot).run _ = _
    split
    · rw [current_toLog]
      rfl
    · have stepped := run_stepOver (onRun.program ▸ assembled)
        (onRun.program ▸ onRun.machine_inRange assembled inRange) ledger
      rw [Keeping.run_bind, stepped]
      cases forwarded : s.forward.run ledger with
      | none => rfl
      | some outcome =>
        obtain ⟨e | t, after⟩ := outcome
        · rfl
        · have onRun' := onRun.forward (forward_of_run forwarded)
          have here := atBreakpoint_shown size (onRun'.machine_inRange assembled inRange)
          have running := isRunning_current t
          change (if !t.current.isRunning then SessionLog.rest .finished t.current
            else if t.current.next?.any fun k => t.breakpoints.contains k.toNat then
              SessionLog.rest .atBreakpoint t.current
            else SessionLog.runOn n : SessionLog.Work Snapshot).run (t.toLog, after) =
              (if t.rests then some ((t.rested, none), after) else t.advance n after).map _
          rw [running, here, rests, rested]
          cases t.machine.isRunning <;> cases t.atBreakpoint
          · rfl
          · rfl
          · exact ih onRun' after
          · rfl

theorem run_resume (size : p.size ≤ UInt64.size) (onRun : s.OnRun r p first)
    (breakpoints : List Nat) (ledger : Ledger) :
    (SessionLog.resume breakpoints).run (s.toLog, ledger) =
      (s.resume breakpoints ledger).map (Move.resume breakpoints).told := by
  let marked : Session := { s with breakpoints := .ofList breakpoints }
  have kept : marked.OnRun r p first :=
    ⟨onRun.evaluator, onRun.payer?, onRun.program, onRun.origin, onRun.history⟩
  have ran := run_runOn assembled inRange size s.evaluator.stepLimit kept ledger
  change ((SessionLog.runOn s.evaluator.stepLimit).run (marked.toLog, ledger)).map _ =
    ((marked.advance s.evaluator.stepLimit ledger).bind _).map _
  rw [ran]
  obtain _ | ⟨⟨t, _ | e⟩, after⟩ := marked.advance s.evaluator.stepLimit ledger <;> rfl

/-- A log answers a move as the session does, and becomes the log of what the session becomes. -/
theorem run_perform (size : p.size ≤ UInt64.size) (onRun : s.OnRun r p first) (m : Move)
    (ledger : Ledger) :
    (SessionLog.perform m).run (s.toLog, ledger) = (s.perform m ledger).map m.told := by
  cases m with
  | forward =>
    have stepped := run_stepOver (onRun.program ▸ assembled)
      (onRun.program ▸ onRun.machine_inRange assembled inRange) ledger
    change SessionLog.stepOver.run (s.toLog, ledger) = ((s.forward.run ledger).map _).map _
    rw [stepped]
    obtain _ | ⟨e | t, after⟩ := s.forward.run ledger <;> rfl
  | back => exact run_stepBack ledger
  | resume breakpoints => exact run_resume assembled inRange size onRun breakpoints ledger
  | stop =>
    rw [SessionLog.perform, SessionLog.run_halt, frontier_toLog]
    rfl
  | signal signal =>
    have shown : { s with signal }.toLog.current = s.current := current_toLog _
    change some (Except.ok { s with signal }.toLog.current, _, _) = _
    rw [shown]
    rfl

end OnRun

/-- The moves among some events. -/
def Event.moves (events : List Event) : List Move :=
  events.filterMap fun
    | .move m => some m
    | .deposit _ _ => none

/-- Whatever happens around them, a log and the session that it stands for answer alike. -/
theorem play_toLog {r : Run} {p : Program} {first : Machine} {s : Session}
    (assembled : p.Assembled) (inRange : first.InRange p) (size : p.size ≤ UInt64.size)
    (onRun : s.OnRun r p first) (events : List Event) (ledger : Ledger) :
    SessionLog.play events s.toLog ledger =
      (play events s ledger).map fun (answers, ledger) =>
        (List.zipWith Move.answer (Event.moves events) answers, ledger) := by
  induction events generalizing s ledger with
  | nil => rfl
  | cons event later ih =>
    cases event with
    | deposit user amount => exact ih onRun _
    | move m =>
      rw [SessionLog.play, play, run_perform assembled inRange size onRun]
      cases moved : s.perform m ledger with
      | none => rfl
      | some a =>
        obtain ⟨⟨t, failure?⟩, after⟩ := a
        have onRun' := (OnRun.kept r p first).perform onRun (fun _ => onRun.back _) moved
        change (SessionLog.play later t.toLog after).map _ = ((play later t after).map _).map _
        rw [ih onRun']
        cases play later t after <;> rfl

theorem toLog_start (r : Run) (p : Program) (inputs : List Int64) :
    (start r p inputs).toLog = .start r p inputs := rfl

/-- A log that is started on a program answers like a session that is, with entries, pointer and
machine that belong to the steps of that session. -/
theorem play_start (r : Run) {p : Program} (assembled : p.Assembled)
    (size : p.size ≤ UInt64.size) (inputs : List Int64) (events : List Event) (ledger : Ledger) :
    SessionLog.play events (.start r p inputs) ledger =
      (play events (start r p inputs) ledger).map fun (answers, ledger) =>
        (List.zipWith Move.answer (Event.moves events) answers, ledger) := by
  rw [← toLog_start]
  exact play_toLog assembled (Machine.inRange_start _ _) size (onRun_start r p inputs) events ledger

end Session

end SLanguage
