import SLanguage.Machine.Basic
import SLanguage.Proofs.Assembly

/-! Single steps. A step that is made runs the instruction that the machine points at and
follows its jump, and in an assembled program it leads to an instruction or to a halt.
The steps of a run are numbered from 0, as far as they can be made. -/

namespace SLanguage

namespace Attempt

variable {ε α β : Type}

theorem run_bind (x : Attempt ε α) (f : α → Attempt ε β) :
    (x >>= f).run =
      match x.run with
      | none => none
      | some (.error e) => some (.error e)
      | some (.ok a) => (f a).run := by
  change (ExceptT.bind x f).run = _
  simp only [ExceptT.bind, ExceptT.run, ExceptT.mk, bind]
  cases x with
  | none => rfl
  | some r => cases r <;> rfl

@[simp] theorem run_pure (a : α) : (pure a : Attempt ε α).run = some (.ok a) := rfl

@[simp] theorem run_ofExcept (r : Except ε α) : (ofExcept r).run = some r := rfl

theorem run_bind_eq_ok {x : Attempt ε α} {f : α → Attempt ε β} {b : β} :
    (x >>= f).run = some (.ok b) ↔ ∃ a, x.run = some (.ok a) ∧ (f a).run = some (.ok b) := by
  rw [run_bind]
  cases h : x.run with
  | none => simp
  | some r => cases r <;> simp

end Attempt

theorem Program.exists_instruction {p : Program} {k : Nat} (lt : k < p.size) :
    ∃ i, p.instructions[k]? = some i :=
  ⟨_, Array.getElem?_eq_getElem lt⟩

namespace Machine

variable {answering : Answering} {p : Program} {m : Machine}

theorem step_of_halted (halted : m.next? = none) : m.step answering p = pure none := by
  unfold step
  rw [halted]

theorem step_of_no_instruction {k : Nat} (next : m.next? = some k)
    (at_k : p.instructions[k]? = none) : m.step answering p = pure none := by
  unfold step
  simp only [next, at_k]

theorem step_of_instruction {k : Nat} {i : Instruction} (next : m.next? = some k)
    (at_k : p.instructions[k]? = some i) :
    m.step answering p = (do
      let e ← i.effect answering m.store
      let next? ← Attempt.ofExcept (p.follow k e.jump)
      let cost := Amount.sum i.baseCycles e.callCycles
      return some {
        index := k, cost
        after := { next?, store := e.store, cycles := Amount.sum m.cycles cost } }) := by
  unfold step
  simp only [next, at_k]

/-- Everything that a step can do. -/
theorem step_eq_some_iff {v : Visit} :
    (m.step answering p).run = some (.ok (some v)) ↔
      ∃ k i e next?, m.next? = some k ∧ p.instructions[k]? = some i ∧
        (i.effect answering m.store).run = some (.ok e) ∧ p.follow k e.jump = .ok next? ∧
        v = {
          index := k, cost := Amount.sum i.baseCycles e.callCycles
          after := {
            next?, store := e.store
            cycles := Amount.sum m.cycles (Amount.sum i.baseCycles e.callCycles) } } := by
  cases next : m.next? with
  | none => simp [step_of_halted next]
  | some k =>
    cases at_k : p.instructions[k]? with
    | none =>
      simp [step_of_no_instruction next at_k, at_k]
    | some i =>
      rw [step_of_instruction next at_k]
      simp only [Attempt.run_bind_eq_ok, Attempt.run_ofExcept, Attempt.run_pure,
        Option.some.injEq, Except.ok.injEq]
      constructor
      · rintro ⟨e, ran, next?, followed, rfl⟩
        exact ⟨k, i, e, next?, rfl, at_k, ran, followed, rfl⟩
      · rintro ⟨k', i', e, next?, rfl, at_k', ran, followed, rfl⟩
        obtain rfl : i = i' := Option.some.inj (at_k.symm.trans at_k')
        exact ⟨e, ran, next?, followed, rfl⟩

/-- The machine points at an instruction of the program, unless it has halted. -/
def InRange (p : Program) (m : Machine) : Prop :=
  ∀ k, m.next? = some k → k < p.size

theorem inRange_start (p : Program) (s : Store) : (start p s).InRange p := by
  intro k
  unfold start
  split
  · intro h
    cases h
  · intro h
    cases h
    omega

theorem lt_size_of_follow {p : Program} (h : p.Assembled) {k next : Nat} {l : Label}
    (followed : p.follow k l = .ok (some next)) : next < p.size := by
  unfold Program.follow at followed
  split at followed
  · split at followed
    · cases followed
      assumption
    · cases followed
  · cases followed
  · split at followed
    · rename_i found
      cases followed
      exact h.lt_size_of_position? found
    · cases followed

theorem InRange.step (assembled : p.Assembled) {v : Visit}
    (h : (m.step answering p).run = some (.ok (some v))) : v.after.InRange p := by
  obtain ⟨k, i, e, next?, -, -, -, followed, rfl⟩ := step_eq_some_iff.1 h
  intro next eq
  change next? = some next at eq
  subst eq
  exact lt_size_of_follow assembled followed

/-- A machine that makes no step has halted. -/
theorem InRange.halted (inRange : m.InRange p)
    (h : (m.step answering p).run = some (.ok none)) : m.isRunning = false := by
  cases next : m.next? with
  | none => simp [isRunning, next]
  | some k =>
    obtain ⟨i, at_k⟩ := Program.exists_instruction (inRange k next)
    rw [step_of_instruction next at_k] at h
    simp only [Attempt.run_bind_eq_ok, Attempt.run_pure, Option.some.injEq, Except.ok.injEq,
      reduceCtorEq, and_false, exists_false] at h

theorem InRange.next_of_halted (inRange : m.InRange p)
    (h : (m.step answering p).run = some (.ok none)) : m.next? = none := by
  have stopped := inRange.halted h
  unfold isRunning at stopped
  exact Option.not_isSome_iff_eq_none.1 (by rw [stopped]; exact Bool.false_ne_true)

theorem cycles_of_step {v : Visit} (h : (m.step answering p).run = some (.ok (some v))) :
    v.after.cycles = Amount.sum m.cycles v.cost := by
  obtain ⟨-, -, -, -, -, -, -, -, rfl⟩ := step_eq_some_iff.1 h
  rfl

/-- The machine comes to stand like the second one after so many steps. -/
inductive Steps (answering : Answering) (p : Program) : Nat → Machine → Machine → Prop where
  | refl (m : Machine) : Steps answering p 0 m m
  | step {m last : Machine} {v : Visit} {n : Nat}
      (made : (m.step answering p).run = some (.ok (some v)))
      (rest : Steps answering p n v.after last) : Steps answering p (n + 1) m last

/-- The machine comes to stand like the second one. -/
def Leads (answering : Answering) (p : Program) (m last : Machine) : Prop :=
  ∃ n, m.Steps answering p n last

theorem Leads.refl (m : Machine) : m.Leads answering p m :=
  ⟨0, .refl m⟩

theorem Leads.step {last : Machine} {v : Visit}
    (made : (m.step answering p).run = some (.ok (some v)))
    (rest : v.after.Leads answering p last) : m.Leads answering p last :=
  rest.elim fun n steps => ⟨n + 1, .step made steps⟩

theorem toHalt_succ (n : Nat) :
    m.toHalt answering p (n + 1) = (do
      match ← m.step answering p with
      | none => return m
      | some v => v.after.toHalt answering p n) := by
  unfold toHalt
  rw [drive]
  cases m.step answering p with
  | none => rfl
  | some made =>
    obtain e | v? := made
    · rfl
    · cases v? <;> rfl

/-- The step that the machine makes next, if it makes one. -/
def visit? (answering : Answering) (p : Program) (m : Machine) : Option Visit :=
  match (m.step answering p).run with
  | some (.ok visit?) => visit?
  | _ => none

theorem visit?_eq_some_iff {v : Visit} :
    m.visit? answering p = some v ↔ (m.step answering p).run = some (.ok (some v)) := by
  unfold visit?
  split <;> simp_all

theorem isRunning_of_visit? {v : Visit} (made : m.visit? answering p = some v) :
    m.isRunning = true := by
  obtain ⟨k, -, -, -, next, -⟩ := step_eq_some_iff.1 (visit?_eq_some_iff.1 made)
  simp [isRunning, next]

/-- The step of a number, counted from 0, of the run that starts at the machine. -/
def nth? (answering : Answering) (p : Program) (m : Machine) : Nat → Option Visit
  | 0 => m.visit? answering p
  | k + 1 => (m.nth? answering p k).bind fun v => v.after.visit? answering p

theorem inRange_of_nth? (assembled : p.Assembled) {k : Nat} {v : Visit}
    (made : m.nth? answering p k = some v) : v.after.InRange p := by
  cases k with
  | zero => exact InRange.step assembled (visit?_eq_some_iff.1 made)
  | succ k =>
    obtain ⟨u, -, next⟩ := Option.bind_eq_some_iff.1 made
    exact InRange.step assembled (visit?_eq_some_iff.1 next)

/-- What is shown after the step of a number, with what the step cost. -/
def logged? (answering : Answering) (p : Program) (m : Machine) (k : Nat) :
    Option (Snapshot × Nat) :=
  (m.nth? answering p k).map fun v => (v.after.snapshot p (some v.index), v.cost)

/-- What is shown after so many steps, if they can be made. -/
def shown? (answering : Answering) (p : Program) (m : Machine) : Nat → Option Snapshot
  | 0 => some (m.snapshot p none)
  | k + 1 => (m.logged? answering p k).map Prod.fst

end Machine

end SLanguage
