import SLanguage.Proofs.Calls.Answers

/-! Bounds on values. A machine that starts with values up to the largest one, and whose
calls give such values, keeps to them. So all that calls give is bounded. -/

namespace SLanguage

namespace Store

/-- No value is above the largest. -/
def Bounded (s : Store) : Prop :=
  ∀ v, s.get v ≤ largest

variable {s : Store}

theorem bounded_empty : (∅ : Store).Bounded := by
  intro v
  rw [get_empty]
  exact Nat.zero_le _

theorem Bounded.set (bounded : s.Bounded) (v : Variable) {n : Nat} (le : n ≤ largest) :
    (s.set v n).Bounded := by
  intro w
  rw [get_set]
  split
  · exact le
  · exact bounded w

theorem Bounded.assign (bounded : s.Bounded) {values : List (Variable × Nat)}
    (le : ∀ value ∈ values, value.2 ≤ largest) : (s.assign values).Bounded := by
  induction values generalizing s with
  | nil => exact bounded
  | cons value values ih =>
    exact ih (bounded.set value.1 (le value (List.mem_cons_self ..)))
      fun other mem => le other (List.mem_cons_of_mem _ mem)

theorem bounded_ofInputs {inputs : List Nat} (le : ∀ n ∈ inputs, n ≤ largest) :
    (ofInputs inputs).Bounded :=
  bounded_empty.assign fun value mem => le value.2 (List.of_mem_zip mem).2

theorem natural_le_largest (n : Int64) : natural n ≤ largest := by
  have lt := n.toInt_lt
  unfold natural largest
  omega

end Store

/-- Answers to calls are bounded as long as the values that their arguments read are. -/
def Answering.Bounded (answering : Answering) : Prop :=
  ∀ c s y, s.Bounded → answering c s = pure y → y.value ≤ Store.largest

theorem Instruction.bounded_reaction {i : Instruction} {s : Store} {y : Yield}
    (bounded : s.Bounded) (value : y.value ≤ Store.largest) : (i.reaction s y).store.Bounded := by
  have own := bounded i.subject
  unfold reaction
  cases i.op with
  | increase => exact bounded.set _ (Nat.min_le_right ..)
  | decrease => exact bounded.set _ (by omega)
  | zeroVariable => exact bounded.set _ (Nat.zero_le _)
  | assignment source => exact bounded.set _ (bounded source)
  | constantAssignment k => exact bounded.set _ (Nat.min_le_right ..)
  | quote c => exact bounded.set _ value
  | _ => exact bounded

theorem Instruction.bounded_effect {answering : Answering} (answers : answering.Bounded)
    {i : Instruction} {s : Store} {e : Effect} (bounded : s.Bounded)
    (ran : i.effect answering s = pure e) : e.store.Bounded := by
  cases calls : i.op.call? with
  | none =>
    rw [effect_of_no_call calls] at ran
    rw [← Attempt.pure_injective ran]
    exact bounded_reaction bounded (Nat.zero_le _)
  | some c =>
    rw [effect_of_call calls] at ran
    obtain ⟨y, answered, ran⟩ := Attempt.run_bind_eq_ok.1 (congrArg ExceptT.run ran)
    rw [← Attempt.pure_injective ran]
    exact bounded_reaction bounded (answers c s y bounded answered)

namespace Machine

variable {answering : Answering} {p : Program} {m : Machine}

theorem bounded_of_step (answers : answering.Bounded) (bounded : m.store.Bounded) {v : Visit}
    (made : (m.step answering p).run = some (.ok (some v))) : v.after.store.Bounded := by
  obtain ⟨k, i, e, next?, -, -, ran, -, rfl⟩ := step_eq_some_iff.1 made
  exact Instruction.bounded_effect answers bounded ran

theorem bounded_of_toHalt (answers : answering.Bounded) (bounded : m.store.Bounded) {limit : Nat}
    {last : Machine} (halts : m.toHalt answering p limit = pure last) : last.store.Bounded := by
  induction limit generalizing m with
  | zero => exact absurd halts.symm (Attempt.pure_ne_stop last none)
  | succ limit ih =>
    rw [toHalt_succ] at halts
    obtain ⟨v?, made, rest⟩ := Attempt.run_bind_eq_ok.1 (congrArg ExceptT.run halts)
    cases v? with
    | none =>
      rw [← Attempt.pure_injective rest]
      exact bounded
    | some v => exact ih (bounded_of_step answers bounded made) rest

end Machine

namespace Evaluator

theorem bounded_arguments {answering : Answering} (answers : answering.Bounded) {s : Store}
    (bounded : s.Bounded) {as : List Argument} {yields : List Yield}
    (read : arguments answering s as = pure yields) : ∀ y ∈ yields, y.value ≤ Store.largest := by
  induction as generalizing yields with
  | nil =>
    rw [← Attempt.pure_injective read]
    exact fun y mem => nomatch mem
  | cons a as ih =>
    obtain ⟨first, rest, value, others, rfl⟩ := arguments_cons_eq_pure.1 read
    refine List.forall_mem_cons.2 ⟨?_, ih others⟩
    cases a with
    | var v =>
      rw [← Attempt.pure_injective value]
      exact bounded v
    | call f inner => exact answers ⟨f, inner⟩ s first bounded value

/-- What runs for a call starts with the values that its arguments gave. -/
theorem bounded_entry {ev : Evaluator} (assembled : ∀ f ∈ ev.functions.items, f.Assembled)
    {answering : Answering} (answers : answering.Bounded) {s : Store} (bounded : s.Bounded)
    {c : Call} {yields : List Yield} {e : Entry}
    (read : arguments answering s c.arguments = pure yields)
    (entered : ev.entry c (yields.map Yield.value) = .ok e) : e.store.Bounded := by
  obtain ⟨callee, -, runs⟩ := runs_of_entry assembled entered
  obtain ⟨slots, store⟩ := runs.store
  rw [store]
  refine Store.bounded_empty.assign fun value mem => ?_
  obtain ⟨y, given, same⟩ := List.mem_map.1 (List.of_mem_zip mem).2
  rw [← same]
  exact bounded_arguments answers bounded read y given

/-- Under either strategy a call gives a value up to the largest. -/
theorem bounded_answer {ev : Evaluator} (assembled : ∀ f ∈ ev.functions.items, f.Assembled)
    (room : Nat) : Answering.Bounded (ev.answer room) := by
  induction room with
  | zero => exact fun c s y _ given => absurd given.symm (Attempt.pure_ne_stop y (some _))
  | succ room ih =>
    intro c s y bounded given
    rw [answer] at given
    obtain ⟨yields, read, given⟩ := Attempt.run_bind_eq_ok.1 (congrArg ExceptT.run given)
    obtain ⟨e, entered, given⟩ := Attempt.run_bind_eq_ok.1 given
    obtain ⟨m, halts, given⟩ := Attempt.run_bind_eq_ok.1 given
    have entered : ev.entry c (yields.map Yield.value) = .ok e := Option.some.inj entered
    rw [← Attempt.pure_injective given]
    exact Machine.bounded_of_toHalt ih (bounded_entry assembled ih bounded read entered) halts
      e.result

end Evaluator

end SLanguage
