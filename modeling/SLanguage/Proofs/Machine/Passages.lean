import SLanguage.Proofs.Calls.Copies

/-! Passages: stretches of a run, told by the index and the store at their two ends, and by a
region of the program that they keep to in between. What a machine has paid does not matter to
them. A block of code that a program holds from some index on is passed instruction by
instruction, wherever it stands. -/

namespace SLanguage

namespace Machine

variable {answering : Answering} {p : Program} {m last : Machine}

theorem Steps.trans {k n : Nat} {mid : Machine} (first : m.Steps answering p k mid)
    (second : mid.Steps answering p n last) : m.Steps answering p (k + n) last := by
  induction first with
  | refl => rwa [Nat.zero_add]
  | step made _ ih =>
    rw [Nat.add_right_comm]
    exact .step made (ih second)

/-- So many steps are made, and all of them run instructions of a region. -/
inductive StepsIn (answering : Answering) (p : Program) (region : Nat → Prop) :
    Nat → Machine → Machine → Prop where
  | refl (m : Machine) : StepsIn answering p region 0 m m
  | step {m last : Machine} {v : Visit} {n : Nat}
      (made : (m.step answering p).run = some (.ok (some v))) (within : region v.index)
      (rest : StepsIn answering p region n v.after last) :
      StepsIn answering p region (n + 1) m last

namespace StepsIn

variable {region : Nat → Prop}

theorem trans {k n : Nat} {mid : Machine} (first : m.StepsIn answering p region k mid)
    (second : mid.StepsIn answering p region n last) :
    m.StepsIn answering p region (k + n) last := by
  induction first with
  | refl => rwa [Nat.zero_add]
  | step made within _ ih =>
    rw [Nat.add_right_comm]
    exact .step made within (ih second)

theorem steps {n : Nat} (stepsIn : m.StepsIn answering p region n last) :
    m.Steps answering p n last := by
  induction stepsIn with
  | refl m => exact .refl m
  | step made _ _ ih => exact .step made ih

end StepsIn

/-- A drive may begin with steps that are known. -/
theorem drive_of_steps {n : Nat} (steps : m.Steps answering p n last) (limit : Nat) :
    m.drive answering p (n + limit) = last.drive answering p limit := by
  induction steps with
  | refl => rw [Nat.zero_add]
  | step made _ ih =>
    rw [Nat.add_right_comm, drive, made]
    exact ih

/-- A drive that ends does so with more steps to spare. -/
theorem drive_of_le {limit limit' : Nat} (le : limit ≤ limit') {r : Machine × Option RunError}
    (ended : m.drive answering p limit = some r) : m.drive answering p limit' = some r := by
  induction limit generalizing limit' m with
  | zero => cases ended
  | succ limit ih =>
    obtain ⟨limit', rfl⟩ : ∃ n, limit' = n + 1 := ⟨limit' - 1, by omega⟩
    rw [drive] at ended ⊢
    split
    · rename_i none
      rw [none] at ended
      cases ended
    · rename_i e failed
      rw [failed] at ended
      exact ended
    · rename_i halted
      rw [halted] at ended
      exact ended
    · rename_i v made
      rw [made] at ended
      exact ih (by omega) ended

theorem drive_of_unfinished (unfinished : m.step answering p = .unfinished) (n : Nat) :
    m.drive answering p n = none := by
  cases n with
  | zero => rfl
  | succ n =>
    rw [drive, unfinished]
    rfl

end Machine

/-- The region of all indices. -/
def anywhere (_ : Nat) : Prop :=
  True

/-- The program leads from an index and a store to others in so many steps, and keeps to a
region until it is there. -/
def Passes (answering : Answering) (p : Program) (region : Nat → Prop) (n : Nat)
    (k : Option Nat) (s : Store) (k' : Option Nat) (s' : Store) : Prop :=
  ∀ m : Machine, m.next? = k → m.store = s →
    ∃ last : Machine, last.next? = k' ∧ last.store = s' ∧ m.StepsIn answering p region n last

namespace Passes

variable {answering : Answering} {p : Program} {region : Nat → Prop}

theorem refl (k : Option Nat) (s : Store) : Passes answering p region 0 k s k s :=
  fun m next store => ⟨m, next, store, .refl m⟩

theorem trans {n n' : Nat} {k k' k'' : Option Nat} {s s' s'' : Store}
    (first : Passes answering p region n k s k' s')
    (second : Passes answering p region n' k' s' k'' s'') :
    Passes answering p region (n + n') k s k'' s'' := by
  intro m next store
  obtain ⟨mid, next, store, steps⟩ := first m next store
  obtain ⟨last, next, store, steps'⟩ := second mid next store
  exact ⟨last, next, store, steps.trans steps'⟩

theorem of_instruction {k : Nat} {i : Instruction} {s : Store} {e : Effect} {next? : Option Nat}
    (within : region k) (at_k : p.instructions[k]? = some i)
    (ran : i.effect answering s = pure e) (followed : p.follow k e.jump = .ok next?) :
    Passes answering p region 1 (some k) s next? e.store := by
  rintro m next rfl
  have made := Machine.step_eq_some_iff.2
    ⟨k, i, e, next?, next, at_k, congrArg ExceptT.run ran, followed, rfl⟩
  exact ⟨_, rfl, rfl, .step made within (.refl _)⟩

/-- Any steps make a passage, as no step looks at what has been paid. -/
theorem of_steps {m last : Machine} {n : Nat} (steps : m.Steps answering p n last) :
    Passes answering p anywhere n m.next? m.store last.next? last.store := by
  induction steps with
  | refl m => exact refl _ _
  | @step m last v n made rest ih =>
    obtain ⟨k, i, e, next?, next, at_k, ran, followed, rfl⟩ := Machine.step_eq_some_iff.1 made
    rw [next, Nat.add_comm]
    exact (of_instruction trivial at_k ran followed).trans ih

end Passes

/-- A machine at an index, with a store, does not halt within so many steps, because one of
its calls is not answered within so many. -/
def Stalls (answering : Answering) (p : Program) (limit : Nat) (k : Option Nat) (s : Store) :
    Prop :=
  ∀ m : Machine, m.next? = k → m.store = s → ∀ n ≤ limit, m.drive answering p n = none

namespace Stalls

variable {answering : Answering} {p : Program} {limit : Nat}

theorem of_instruction {k : Nat} {i : Instruction} {s : Store}
    (at_k : p.instructions[k]? = some i) (unfinished : i.effect answering s = .unfinished) :
    Stalls answering p limit (some k) s := by
  rintro m next rfl n -
  refine Machine.drive_of_unfinished ?_ n
  rw [Machine.step_of_instruction next at_k, unfinished]
  rfl

/-- What stalls after a passage stalls before it. -/
theorem of_passes {region : Nat → Prop} {n : Nat} {k k' : Option Nat} {s s' : Store}
    (passed : Passes answering p region n k s k' s') (stalls : Stalls answering p limit k' s') :
    Stalls answering p limit k s := by
  intro m next store f le
  obtain ⟨last, next, store, stepsIn⟩ := passed m next store
  cases ended : m.drive answering p f with
  | none => rfl
  | some r =>
    have later := Machine.drive_of_le (Nat.le_add_left f n) ended
    rw [Machine.drive_of_steps stepsIn.steps, stalls last next store f le] at later
    cases later

end Stalls

/-- The block stands in the program from an index on. An instruction that carries no label
in the block may carry one in the program. -/
def Program.Holds (p : Program) (start : Nat) (block : List Instruction) : Prop :=
  ∀ j i, block[j]? = some i → ∃ q, p.instructions[start + j]? = some q ∧
    q.subject = i.subject ∧ q.op = i.op ∧ (i.label ≠ .empty → q.label = i.label)

namespace Program.Holds

variable {p : Program} {start : Nat} {block : List Instruction}

theorem append {first second : List Instruction} (holds : p.Holds start (first ++ second)) :
    p.Holds start first ∧ p.Holds (start + first.length) second := by
  constructor
  · intro j i at_j
    exact holds j i (List.getElem?_append_left (List.getElem?_eq_some_iff.1 at_j).1 ▸ at_j)
  · intro j i at_j
    have found : (first ++ second)[first.length + j]? = some i := by
      rw [List.getElem?_append_right (Nat.le_add_right ..), Nat.add_sub_cancel_left, at_j]
    rw [Nat.add_assoc]
    exact holds _ i found

theorem tail {i : Instruction} (holds : p.Holds start (i :: block)) :
    p.Holds (start + 1) block := by
  intro j k at_j
  rw [Nat.add_right_comm, Nat.add_assoc]
  exact holds (j + 1) k at_j

theorem falls (holds : p.Holds start block) {j : Nat} {i : Instruction}
    (more : block[j + 1]? = some i) :
    p.follow (start + j) .empty = .ok (some (start + (j + 1))) := by
  obtain ⟨q, at_q, -⟩ := holds (j + 1) i more
  exact Program.follow_empty (Array.getElem?_eq_some_iff.1 at_q).1

theorem leads (holds : p.Holds start block) (assembled : p.Assembled) {j : Nat}
    {i : Instruction} {n : Serial} (at_j : block[j]? = some i) (own : i.label = .numbered n)
    (k : Nat) : p.follow k (.numbered n) = .ok (some (start + j)) := by
  obtain ⟨q, at_q, -, -, carries⟩ := holds j i at_j
  have named : q.label = .numbered n := (carries (own ▸ Label.noConfusion)).trans own
  exact Program.follow_numbered_eq_ok.2 ⟨start + j, assembled.position?_eq_some_iff.2
    ⟨Label.noConfusion, q, by simpa using at_q, named⟩, rfl⟩

end Program.Holds

/-- The block stands in the program from an index on, and all of it in a region. -/
structure Program.Offers (p : Program) (region : Nat → Prop) (start : Nat)
    (block : List Instruction) : Prop where
  holds : p.Holds start block
  within : ∀ j < block.length, region (start + j)

theorem Program.Holds.anywhere {p : Program} {start : Nat} {block : List Instruction}
    (holds : p.Holds start block) : p.Offers anywhere start block :=
  ⟨holds, fun _ _ => trivial⟩

namespace Program.Offers

variable {p : Program} {region : Nat → Prop} {start : Nat} {block : List Instruction}

theorem append {first second : List Instruction}
    (offers : p.Offers region start (first ++ second)) :
    p.Offers region start first ∧ p.Offers region (start + first.length) second := by
  obtain ⟨front, back⟩ := offers.holds.append
  have within := offers.within
  rw [List.length_append] at within
  refine ⟨⟨front, fun j lt => within j (by omega)⟩, back, fun j lt => ?_⟩
  rw [Nat.add_assoc]
  exact within (first.length + j) (by omega)

theorem tail {i : Instruction} (offers : p.Offers region start (i :: block)) :
    p.Offers region (start + 1) block := by
  obtain ⟨-, tail⟩ := append (show p.Offers region start ([i] ++ block) from offers)
  exact tail

theorem passes (answering : Answering) (offers : p.Offers region start block) {j : Nat}
    {i : Instruction} {s : Store} {e : Effect} {next? : Option Nat}
    (at_j : block[j]? = some i) (ran : i.effect answering s = pure e)
    (followed : p.follow (start + j) e.jump = .ok next?) :
    Passes answering p region 1 (some (start + j)) s next? e.store := by
  obtain ⟨q, at_q, subject, op, -⟩ := offers.holds j i at_j
  have within := offers.within j (List.getElem?_eq_some_iff.1 at_j).1
  refine .of_instruction within at_q ?_ followed
  rw [← ran, Instruction.effect, Instruction.effect, subject, op]

theorem falls (offers : p.Offers region start block) {j : Nat} {i : Instruction}
    (more : block[j + 1]? = some i) :
    p.follow (start + j) .empty = .ok (some (start + (j + 1))) :=
  offers.holds.falls more

theorem leads (offers : p.Offers region start block) (assembled : p.Assembled) {j : Nat}
    {i : Instruction} {n : Serial} (at_j : block[j]? = some i) (own : i.label = .numbered n)
    (k : Nat) : p.follow k (.numbered n) = .ok (some (start + j)) :=
  offers.holds.leads assembled at_j own k

end Program.Offers

theorem Program.follow_of_ne_empty {p : Program} {l : Label} (ne : l ≠ .empty) (k k' : Nat) :
    p.follow k l = p.follow k' l := by
  cases l with
  | empty => exact absurd rfl ne
  | exit => rfl
  | numbered n => rfl

end SLanguage
