import SLanguage.Proofs.Calls.Copies
import SLanguage.Proofs.Keeping

/-! Steps on a machine in place. A machine that is kept and written to has its store changed
first, then its cycles, and its pointer last, and what was written stays where the step fails
later on. In an assembled program nothing fails once something is written. So such a step does
what a step does that gives a new machine. -/

namespace SLanguage.Machine

/-- Work on a machine that is written to. -/
abbrev InPlace (α : Type) := Keeping Machine RunError α

namespace InPlace

variable {α : Type}

def ofAttempt (a : Attempt RunError α) : InPlace α :=
  ExceptT.mk fun m => a.run.map fun outcome => (outcome, m)

theorem run_ofAttempt (a : Attempt RunError α) (m : Machine) :
    (ofAttempt a).run m = a.run.map fun outcome => (outcome, m) := rfl

end InPlace

/-- Runs an instruction in place: its index and what it cost. -/
def runInPlace (answering : Answering) (p : Program) (index : Nat) (i : Instruction) :
    InPlace (Nat × Nat) := do
  let m ← getThe Machine
  let e ← InPlace.ofAttempt (i.effect answering m.store)
  modifyThe Machine fun m => { m with store := e.store }
  let cost := Amount.sum i.baseCycles e.callCycles
  modifyThe Machine fun m => { m with cycles := Amount.sum m.cycles cost }
  let next? ← InPlace.ofAttempt (.ofExcept (p.follow index e.jump))
  modifyThe Machine fun m => { m with next? }
  return (index, cost)

/-- Runs the next instruction in place, or none if the machine has halted. A machine that
points at no instruction halts. -/
def stepInPlace (answering : Answering) (p : Program) : InPlace (Option (Nat × Nat)) := do
  let m ← getThe Machine
  match m.next? with
  | none => return none
  | some index =>
    match p.instructions[index]? with
    | none =>
      set { m with next? := none }
      return none
    | some i => return some (← runInPlace answering p index i)

/-- What a step comes to where the machine is written to: the machine after it, or the same
machine where it fails. -/
def written (m : Machine) : Except RunError (Option Visit) →
    Except RunError (Option (Nat × Nat)) × Machine
  | .error e => (.error e, m)
  | .ok none => (.ok none, m)
  | .ok (some v) => (.ok (some (v.index, v.cost)), v.after)

variable {answering : Answering} {p : Program} {m : Machine}

theorem run_runInPlace (k : Nat) (i : Instruction) :
    (runInPlace answering p k i).run m =
      match (i.effect answering m.store).run with
      | none => none
      | some (.error e) => some (.error e, m)
      | some (.ok e) =>
        let cost := Amount.sum i.baseCycles e.callCycles
        let m := { m with store := e.store, cycles := Amount.sum m.cycles cost }
        match p.follow k e.jump with
        | .error cause => some (.error cause, m)
        | .ok next? => some (.ok (k, cost), { m with next? }) := by
  change (InPlace.ofAttempt (i.effect answering m.store) >>= _).run m = _
  rw [Keeping.run_bind, InPlace.run_ofAttempt]
  cases (i.effect answering m.store).run with
  | none => rfl
  | some outcome =>
    cases outcome with
    | error e => rfl
    | ok e =>
      change (InPlace.ofAttempt (.ofExcept (p.follow k e.jump)) >>= _).run _ = _
      rw [Keeping.run_bind, InPlace.run_ofAttempt, Attempt.run_ofExcept]
      dsimp only [Option.map_some]
      cases p.follow k e.jump <;> rfl

theorem run_stepInPlace_of_halted (halted : m.next? = none) :
    (stepInPlace answering p).run m = some (.ok none, m) := by
  change (match m.next? with | none => _ | some index => _ : InPlace _).run m = _
  rw [halted]
  rfl

theorem run_stepInPlace_of_instruction {k : Nat} {i : Instruction} (next : m.next? = some k)
    (at_k : p.instructions[k]? = some i) :
    (stepInPlace answering p).run m = (some <$> runInPlace answering p k i).run m := by
  change (match m.next? with | none => _ | some index => _ : InPlace _).run m = _
  rw [next]
  change (match p.instructions[k]? with | none => _ | some i => _ : InPlace _).run m = _
  rw [at_k]
  rfl

/-- In an assembled program nothing fails once the store is written. -/
theorem run_stepInPlace (assembled : p.Assembled) (inRange : m.InRange p) :
    (stepInPlace answering p).run m = (m.step answering p).run.map m.written := by
  cases next : m.next? with
  | none =>
    rw [run_stepInPlace_of_halted next, step_of_halted next]
    rfl
  | some k =>
    obtain ⟨i, at_k⟩ := Program.exists_instruction (inRange k next)
    rw [run_stepInPlace_of_instruction next at_k, step_of_instruction next at_k, map_eq_pure_bind,
      Keeping.run_bind, run_runInPlace, Attempt.run_bind]
    cases ran : (i.effect answering m.store).run with
    | none => rfl
    | some outcome =>
      cases outcome with
      | error e => rfl
      | ok e =>
        obtain ⟨y, rfl⟩ := Instruction.exists_reaction ran
        obtain ⟨next?, followed⟩ : ∃ next?, p.follow k (i.reaction m.store y).jump = .ok next? :=
          assembled.follow_total at_k Instruction.jump_reaction
        simp only [followed]
        rfl

end SLanguage.Machine
