import SLanguage.Proofs.Machine.Steps
import SLanguage.Proofs.Session.Moves

/-! A session is a cursor over one run. Whatever moves were made and however many of them
failed, the steps that a session knows are the first steps of the run that a new machine
makes on the same program and inputs, and it stands after one of them. -/

namespace SLanguage.Session

/-- The steps that the session knows are the first ones of the run from a machine. -/
structure OnRun (s : Session) (r : Run) (p : Program) (first : Machine) : Prop where
  evaluator : s.evaluator = r.evaluator
  payer? : s.payer? = r.payer?
  program : s.program = p
  origin : s.origin = first
  history : ∀ k < s.history.length, s.history[k]? = first.nth? (r.evaluator.answerAt 0) p k

/-- A session that is between two steps has a step before it. -/
def Settled (s : Session) : Prop :=
  s.state = .stepping ∨ s.state = .atBreakpoint → s.machine.isRunning

theorem settled_arrived (s : Session) : s.arrived.Settled := by
  intro state
  by_cases running : s.machine.isRunning
  · exact running
  · have finished : s.arrived.state = .finished := if_neg running
    rw [finished] at state
    simp at state

/-- The step behind the session is the one that its position counts to. -/
theorem head?_past (s : Session) : s.past.head? =
    if s.past.length = 0 then none else s.history[s.past.length - 1]? := by
  cases past : s.past with
  | nil => rfl
  | cons v rest =>
    simp [history, past]

namespace OnRun

variable {r : Run} {p : Program} {first : Machine} {s t : Session}

theorem head?_eq (h : s.OnRun r p first) {k : Nat} (position : s.past.length = k + 1) :
    s.past.head? = first.nth? (r.evaluator.answerAt 0) p k := by
  rw [head?_past, position, if_neg (Nat.succ_ne_zero k), Nat.add_sub_cancel]
  refine h.history k ?_
  simp [Session.history, position]
  omega

/-- The next step of the session is the next step of the run. -/
theorem nth?_position (h : s.OnRun r p first) :
    first.nth? (r.evaluator.answerAt 0) p s.past.length =
      s.machine.visit? (r.evaluator.answerAt 0) p := by
  cases past : s.past with
  | nil =>
    have eq : s.machine = first := by
      rw [machine, past]
      exact h.origin
    rw [eq]
    rfl
  | cons v rest =>
    have head := h.head?_eq (k := rest.length) (by simp [past])
    rw [past, List.head?_cons] at head
    rw [List.length_cons, Machine.nth?, ← head, machine, past]
    rfl

theorem forward (h : s.OnRun r p first) {before after : Ledger}
    (moved : Forward s before t after) : t.OnRun r p first := by
  cases moved with
  | @replayed v rest _ future paid =>
    have kept : { s with past := v :: s.past, future := rest }.arrived.history = s.history := by
      simp [arrived, Session.history, future]
    exact ⟨h.evaluator, h.payer?, h.program, h.origin, kept ▸ h.history⟩
  | halted => exact ⟨h.evaluator, h.payer?, h.program, h.origin, h.history⟩
  | @executed v _ future next paid =>
    have grown : { s with past := v :: s.past }.arrived.history = s.history ++ [v] := by
      simp [arrived, Session.history, future]
    have length : s.history.length = s.past.length := by simp [Session.history, future]
    have made : first.nth? (r.evaluator.answerAt 0) p s.history.length = some v := by
      rw [length, h.nth?_position, Machine.visit?_eq_some_iff, ← h.evaluator, ← h.program]
      exact next
    refine ⟨h.evaluator, h.payer?, h.program, h.origin, fun k lt => ?_⟩
    rw [grown] at lt ⊢
    rw [List.length_append, List.length_singleton] at lt
    by_cases old : k < s.history.length
    · rw [List.getElem?_append_left old]
      exact h.history k old
    · obtain rfl : k = s.history.length := by omega
      rw [made]
      simp

theorem back (h : s.OnRun r p first) (ledger : Ledger) :
    (s.back ledger).1.OnRun r p first := by
  have kept := history_back s ledger
  unfold Session.back at kept ⊢
  split at kept
  · exact h
  · exact ⟨h.evaluator, h.payer?, h.program, h.origin, kept ▸ h.history⟩

theorem machine_inRange (h : s.OnRun r p first) (assembled : p.Assembled)
    (inRange : first.InRange p) : s.machine.InRange p := by
  cases past : s.past with
  | nil =>
    rw [machine, past]
    exact h.origin ▸ inRange
  | cons v rest =>
    have made := h.head?_eq (k := rest.length) (by simp [past])
    rw [past, List.head?_cons] at made
    rw [machine, past]
    exact Machine.inRange_of_nth? assembled made.symm

/-- A step that was gone back over can be made again, so the program is running there. -/
theorem isRunning_of_future (h : s.OnRun r p first) {v : Visit} {rest : List Visit}
    (future : s.future = v :: rest) : s.machine.isRunning = true := by
  have known : s.history[s.past.length]? = some v := by simp [Session.history, future]
  have lt : s.past.length < s.history.length := (List.getElem?_eq_some_iff.1 known).1
  rw [h.history _ lt, h.nth?_position] at known
  exact Machine.isRunning_of_visit? known

theorem shown?_of_getElem? (h : s.OnRun r p first) {k : Nat} {v : Visit}
    (known : s.history[k]? = some v) :
    first.shown? (r.evaluator.answerAt 0) p (k + 1) = some (s.snapshotAfter (some v)) := by
  have lt : k < s.history.length := (List.getElem?_eq_some_iff.1 known).1
  rw [h.history k lt] at known
  rw [Machine.shown?, Machine.logged?, known, snapshotAfter, h.program]
  rfl

theorem shown?_zero (h : s.OnRun r p first) :
    first.shown? (r.evaluator.answerAt 0) p 0 = some (s.snapshotAfter none) := by
  rw [Machine.shown?, snapshotAfter, h.origin, h.program]

theorem shown?_position (h : s.OnRun r p first) :
    first.shown? (r.evaluator.answerAt 0) p s.past.length = some s.current := by
  unfold current
  rw [head?_past]
  cases position : s.past.length with
  | zero => exact h.shown?_zero
  | succ k =>
    have lt : k < s.history.length := by
      simp [Session.history, position]
      omega
    rw [if_neg (Nat.succ_ne_zero k), Nat.add_sub_cancel, List.getElem?_eq_getElem lt]
    exact h.shown?_of_getElem? (List.getElem?_eq_getElem lt)

theorem shown?_last (h : s.OnRun r p first) :
    first.shown? (r.evaluator.answerAt 0) p s.history.length = some s.last := by
  unfold last
  rw [List.getLast?_eq_getElem?]
  cases steps : s.history.length with
  | zero =>
    rw [List.getElem?_eq_none (by omega)]
    exact h.shown?_zero
  | succ k =>
    have lt : k < s.history.length := by omega
    rw [Nat.add_sub_cancel, List.getElem?_eq_getElem lt]
    exact h.shown?_of_getElem? (List.getElem?_eq_getElem lt)

theorem kept (r : Run) (p : Program) (first : Machine) :
    Kept fun s _ => s.OnRun r p first where
  marks _ _ h := ⟨h.evaluator, h.payer?, h.program, h.origin, h.history⟩
  rest _ _ h := ⟨h.evaluator, h.payer?, h.program, h.origin, h.history⟩
  forward h moved := h.forward moved
  failed h _ := h

end OnRun

theorem settled_kept : Kept fun s _ => s.Settled where
  marks _ _ h := h
  rest state cause _ := by
    intro between
    obtain rfl | ⟨-, running⟩ := cause
    · simp at between
    · exact running
  forward {s t before after} _ moved := by
    cases moved with
    | replayed => exact settled_arrived _
    | halted => intro between; simp at between
    | executed => exact settled_arrived _
  failed h _ := h

theorem Settled.back {s : Session} (h : s.Settled) (ledger : Ledger) :
    (s.back ledger).1.Settled := by
  unfold Session.back
  split
  · exact h
  · exact settled_arrived _

/-- No move forgets a step. -/
theorem history_kept (s : Session) : Kept fun t _ => s.history <+: t.history where
  marks _ _ h := h
  rest _ _ h := h
  forward {t u before after} h moved := by
    cases moved with
    | replayed future => simpa [arrived, history, future] using h
    | halted => exact h
    | @executed v _ future =>
      refine h.trans ⟨[v], ?_⟩
      simp [arrived, history, future]
  failed h _ := h

/-- What a session shows of each step that it knows, with what the step cost. -/
def log (s : Session) : List (Snapshot × Nat) :=
  s.history.map fun v => (s.snapshotAfter (some v), v.cost)

theorem OnRun.log_eq {r : Run} {p : Program} {first : Machine} {s : Session}
    (h : s.OnRun r p first) :
    s.log.map some =
      (List.range s.log.length).map (first.logged? (r.evaluator.answerAt 0) p) := by
  refine List.ext_getElem? fun k => ?_
  simp only [log, List.getElem?_map, List.length_map]
  by_cases lt : k < s.history.length
  · have known := h.history k lt
    rw [List.getElem?_eq_getElem lt] at known
    simp [lt, Machine.logged?, ← known, snapshotAfter, h.program]
  · simp [lt]

/-- The session stands on the run of a program from its inputs. `n` steps are known, and
`k` of them lie behind the session. -/
structure Cursor (s : Session) (r : Run) (p : Program) (inputs : List Int64) (n k : Nat) :
    Prop where
  /-- The history is what the first `n` steps of the run show and cost. -/
  log : s.log.map some =
    (List.range n).map ((Machine.ofInputs p inputs).logged? (r.evaluator.answerAt 0) p)
  position : s.past.length = k
  position_le : k ≤ n
  current : (Machine.ofInputs p inputs).shown? (r.evaluator.answerAt 0) p k = some s.current
  last : (Machine.ofInputs p inputs).shown? (r.evaluator.answerAt 0) p n = some s.last
  running : s.state = .stepping ∨ s.state = .atBreakpoint → s.current.isRunning

theorem isRunning_current (s : Session) : s.current.isRunning = s.machine.isRunning := by
  unfold current machine
  cases s.past <;> rfl

theorem OnRun.cursor {r : Run} {p : Program} {inputs : List Int64} {s : Session}
    (h : s.OnRun r p (.ofInputs p inputs)) (settled : s.Settled) :
    s.Cursor r p inputs s.history.length s.past.length where
  log := by simpa [Session.log] using h.log_eq
  position := rfl
  position_le := by simp [Session.history]
  current := h.shown?_position
  last := h.shown?_last
  running between := (isRunning_current s).trans (settled between)

theorem onRun_start (r : Run) (p : Program) (inputs : List Int64) :
    (start r p inputs).OnRun r p (.ofInputs p inputs) where
  evaluator := rfl
  payer? := rfl
  program := rfl
  origin := rfl
  history _ lt := absurd lt (Nat.not_lt_zero _)

theorem Reaches.onRun {r : Run} {p : Program} {inputs : List Int64} {s : Session}
    (reached : (start r p inputs).Reaches s) :
    s.OnRun r p (.ofInputs p inputs) ∧ s.Settled := by
  induction reached with
  | refl => exact ⟨onRun_start r p inputs, by intro between; simp [start] at between⟩
  | move _ moved ih =>
    exact ⟨(OnRun.kept r p _).perform ih.1 (fun _ => ih.1.back _) moved,
      settled_kept.perform ih.2 (fun _ => ih.2.back _) moved⟩

theorem history_perform {s t : Session} {move : Move} {failure? : Option RunError}
    {before after : Ledger} (moved : s.perform move before = some ((t, failure?), after)) :
    s.history <+: t.history := by
  have same : ∀ ledger, s.history <+: (s.back ledger).1.history := fun ledger =>
    (history_back s ledger).symm ▸ List.prefix_refl _
  exact (history_kept s).perform (List.prefix_refl _) (fun _ => same _) moved

/-- In every session that moves lead to, the history is the beginning of one run, and the
session stands at a place of it. Going forward leads to the next step of that run, or
nowhere once the program has halted; going back leads to the step before, or nowhere at
the start; and no move shortens the history. -/
theorem cursor_of_reaches (r : Run) {p : Program} (assembled : p.Assembled)
    (inputs : List Int64) {s : Session} (reached : (start r p inputs).Reaches s) :
    ∃ n k, s.Cursor r p inputs n k ∧
      (∀ t before after, s.forward.run before = some (.ok t, after) →
        if s.current.isRunning then ∃ n', n ≤ n' ∧ t.Cursor r p inputs n' (k + 1)
        else t.Cursor r p inputs n k) ∧
      (∀ before, (s.back before).1.Cursor r p inputs n (k - 1)) ∧
      (∀ move t failure? before after, s.perform move before = some ((t, failure?), after) →
        ∃ n' k', n ≤ n' ∧ t.Cursor r p inputs n' k') := by
  obtain ⟨onRun, settled⟩ := reached.onRun
  have inRange := onRun.machine_inRange assembled (Machine.inRange_start _ _)
  refine ⟨_, _, onRun.cursor settled, fun t before after ran => ?_, fun before => ?_, ?_⟩
  · have moved := forward_of_run ran
    have there := (onRun.forward moved).cursor (settled_kept.forward settled moved)
    have grown := ((history_kept s).forward (List.prefix_refl _) moved).length_le
    rw [isRunning_current]
    cases moved with
    | replayed future paid =>
      rw [if_pos (onRun.isRunning_of_future future)]
      exact ⟨_, grown, there⟩
    | halted future next =>
      rw [nextStep, onRun.evaluator, onRun.program] at next
      rw [if_neg (by simp [inRange.halted next])]
      exact there
    | executed future next paid =>
      rw [nextStep, onRun.evaluator, onRun.program, ← Machine.visit?_eq_some_iff] at next
      rw [if_pos (Machine.isRunning_of_visit? next)]
      exact ⟨_, grown, there⟩
  · have there := (onRun.back before).cursor (settled.back before)
    have position : (s.back before).1.past.length = s.past.length - 1 := by
      unfold back
      split
      · rename_i past
        simp [past]
      · rename_i past
        simp [past, arrived]
    rw [history_back, position] at there
    exact there
  · intro move t failure? before after moved
    exact ⟨_, _, (history_perform moved).length_le,
      ((OnRun.kept r p _).perform onRun (fun _ => onRun.back _) moved).cursor
        (settled_kept.perform settled (fun _ => settled.back _) moved)⟩

def firstInput : Variable := .input .one

def firstLabel : Label := .numbered .one

/-- Moves the first input to the result, one by one. -/
def moving : Program where
  header := ⟨"M", "M", .main⟩
  degree := 0
  instructions := #[
    { subject := firstInput, op := .decrease, label := firstLabel, number := 1 },
    { subject := .result, op := .increase, number := 2 },
    { subject := firstInput, op := .jumpNotZero firstLabel, number := 3 }]
  positions := .ofList [(firstLabel, 0)]
  inputs := .ofList [firstInput, firstInput]
  works := ∅
  names := { highestLabel := 1 }

theorem assembled_moving : moving.Assembled :=
  ⟨moving.header, 0, moving.instructions.toList, {}, rfl⟩

/-- A session that runs out of credits in the second pass of `moving` and is stepped back. -/
theorem cursor_of_reaches_moving :
    let r : Run := { evaluator := { functions := ∅, stepLimit := 10 }, payer? := some "u" }
    ∃ s, (start r moving [2]).Reaches s ∧ s.history.length = 4 ∧
      ∃ n k, s.Cursor r moving [2] n k := by
  intro r
  have ended : ((start r moving [2]).perform (.resume []) (Ledger.empty.deposit "u" 5)).map
      (fun t => t.1.1.history.length) = some 4 := by
    decide +kernel
  obtain ⟨⟨⟨t, failure?⟩, after⟩, ran, length⟩ := Option.map_eq_some_iff.1 ended
  have stepped : t.perform .back after = some (((t.back after).1, none), (t.back after).2) := rfl
  have reached : (start r moving [2]).Reaches (t.back after).1 := .move (.move .refl ran) stepped
  refine ⟨_, reached, ?_, ?_⟩
  · rw [history_back]
    exact length
  · obtain ⟨n, k, cursor, -⟩ := cursor_of_reaches r assembled_moving [2] reached
    exact ⟨n, k, cursor⟩

end SLanguage.Session
