import SLanguage.Run
import Std.Data.TreeSet

/-!
Debugging sessions. A session goes back and forth over one run of a program: the steps
behind it, the latest first, and the steps that it went back over, the next one first.
Every step forward is paid for, also one that was made before, and every step back is
refunded. A step forward that fails leaves the session as it was.
-/

namespace SLanguage

inductive SessionState where
  | notStarted
  | stepping
  | atBreakpoint
  | finished
deriving DecidableEq, Repr

structure Session extends Run where
  program : Program
  origin : Machine
  past : List Visit := []
  future : List Visit := []
  breakpoints : Std.TreeSet Nat := ∅
  state : SessionState := .notStarted

namespace Session

/-- A session before the first step of a run. -/
def start (r : Run) (p : Program) (inputs : List Int64) : Session :=
  { r with program := p, origin := .ofInputs p inputs }

/-- The steps of the run that are known, in order. -/
def history (s : Session) : List Visit :=
  s.past.reverse ++ s.future

/-- The machine where the session stands. -/
def machine (s : Session) : Machine :=
  match s.past with
  | [] => s.origin
  | v :: _ => v.after

/-- What is shown after a step, or before the first one. -/
def snapshotAfter (s : Session) : Option Visit → Snapshot
  | none => s.origin.snapshot s.program none
  | some v => v.after.snapshot s.program (some v.index)

def atStart (s : Session) : Snapshot :=
  s.snapshotAfter none

def current (s : Session) : Snapshot :=
  s.snapshotAfter s.past.head?

/-- What is shown after the last step that is known. -/
def last (s : Session) : Snapshot :=
  s.snapshotAfter s.history.getLast?

/-- The state of a session that has just moved. -/
def arrived (s : Session) : Session :=
  { s with state := if s.machine.isRunning then .stepping else .finished }

def pay (s : Session) (amount : Nat) : Metered RunError Unit :=
  (Metered.pay s.payer? amount).adapt .credits

def forward (s : Session) : Metered RunError Session :=
  match s.future with
  | v :: rest => do
    s.pay v.cost
    return { s with past := v :: s.past, future := rest }.arrived
  | [] => do
    match ← Metered.ofAttempt (s.machine.step (s.evaluator.answerAt 0) s.program) with
    | none => return { s with state := .finished }
    | some v =>
      s.pay v.cost
      return { s with past := v :: s.past }.arrived

def back (s : Session) (ledger : Ledger) : Session × Ledger :=
  match s.past with
  | [] => (s, ledger)
  | v :: rest =>
    ({ s with past := rest, future := v :: s.future }.arrived,
      Metered.refund s.payer? v.cost ledger)

/-- Going back forgets nothing of the run. -/
theorem history_back (s : Session) (ledger : Ledger) :
    (s.back ledger).1.history = s.history := by
  unfold back
  split
  · rfl
  · rename_i h
    simp [arrived, history, h]

/-- Ends a session. Its steps can still be gone over. -/
def stop (s : Session) : Session :=
  { s with state := .finished }

/-- Whether the instruction that runs next is a breakpoint. -/
def atBreakpoint (s : Session) : Bool :=
  s.machine.next?.any s.breakpoints.contains

/-- Steps until the program has halted or stands at a breakpoint, or a step fails, or
the signal is raised before a step. -/
def advance : Nat → Session → Billing (Session × Option RunError)
  | 0, _ => fun _ => none
  | n + 1, s => fun ledger =>
    if s.signal.isRaised ledger.charges then
      some ((s, some (.interrupted s.current)), ledger)
    else
      match s.forward.run ledger with
      | none => none
      | some (.error e, ledger) => some ((s, some e), ledger)
      | some (.ok s, ledger) =>
        if !s.machine.isRunning then some (({ s with state := .finished }, none), ledger)
        else if s.atBreakpoint then some (({ s with state := .atBreakpoint }, none), ledger)
        else advance n s ledger

/-- Goes on to the next of the given breakpoints, with the reason if it stops before.
The signal is cleared however it stops. -/
def resume (s : Session) (breakpoints : List Nat) : Billing (Session × Option RunError) := do
  let s := { s with breakpoints := .ofList breakpoints }
  let (s, failure?) ← advance s.evaluator.stepLimit s
  let ledger ← get
  return ({ s with signal := s.signal.clear ledger.charges }, failure?)

/-- The positions of the flags that are set. -/
def flagged (flags : List Bool) : List Nat :=
  flags.zipIdx.filterMap fun (flag, k) => if flag then some k else none

end Session

end SLanguage
