import Mathlib.Algebra.Ring.Nat
import SLanguage.Proofs.Calls.Bounds
import SLanguage.Proofs.Expansion.Meaning
import SLanguage.Proofs.Machine.InPlace

/-! The machines that come up in a run. There is the one of the program, and for every call one
of its own, at any level of nesting and under either strategy, for a callee as it is or for a
scratch program. Each of them points at an instruction or has halted, holds values in bounds,
has used the cycles that its steps have cost, and follows every jump. -/

namespace SLanguage

/-- Programs that were loaded, and the generations that expanding them came to. -/
inductive Program.Built : Program → Prop where
  | loaded {header : Header} {records : List Record} {p : Program}
      (loaded : Program.load header records = .ok p) : Built p
  | generation {functions : Functions} {p q : Program} {e : Expansion} {degree : Nat}
      (built : Built p) (expanded : (Expansion.ofProgram functions p).run = some (.ok e))
      (at_degree : e.generation degree = .ok q) : Built q

theorem Program.Built.assembled {p : Program} (built : p.Built) : p.Assembled := by
  induction built with
  | loaded loaded => exact assembled_of_load loaded
  | generation _ expanded at_degree ih =>
    obtain ⟨chained, rfl, -⟩ := Expansion.chained_of_ofProgram expanded
    exact chained.induction ih
      (fun _ _ _ _ made => Expansion.assembled_of_nextGeneration made)
      (Expansion.generation_eq_ok_iff.1 at_degree)

namespace Evaluator

/-- With so much room for a call, a call comes up among its arguments, or is the call itself,
with the room that is left for it. -/
inductive Asks : Nat → Call → Nat → Call → Prop where
  | self (room : Nat) (c : Call) : Asks room c room c
  | argument {room left : Nat} {c last inner : Call} (asks : Asks room c (left + 1) last)
      (inside : .call inner.function inner.arguments ∈ last.arguments) : Asks room c left inner

/-- The machines of a run from some inputs. With a machine come the room for its calls, the
program that it runs and what each of its steps has cost. -/
inductive Arises (ev : Evaluator) (p : Program) (inputs : List Int64) :
    Nat → Program → List Nat → Machine → Prop where
  | start : Arises ev p inputs ev.depthLimit p [] (.ofInputs p inputs)
  | step {room : Nat} {q : Program} {costs : List Nat} {m : Machine} {v : Visit}
      (arises : Arises ev p inputs room q costs m)
      (made : (m.step (ev.answer room) q).run = some (.ok (some v))) :
      Arises ev p inputs room q (costs ++ [v.cost]) v.after
  | enter {room left : Nat} {q : Program} {costs : List Nat} {m : Machine} {k : Nat}
      {i : Instruction} {c inner : Call} {yields : List Yield} {e : Entry}
      (arises : Arises ev p inputs room q costs m) (next : m.next? = some k)
      (at_k : q.instructions[k]? = some i) (calls : i.op.call? = some c)
      (asks : Asks room c (left + 1) inner)
      (read : arguments (ev.answer left) m.store inner.arguments = pure yields)
      (entered : ev.entry inner (yields.map Yield.value) = .ok e) :
      Arises ev p inputs left e.program [] (.start e.program e.store)

end Evaluator

/-- What a machine keeps to. A step that fails leaves nothing behind, also where the machine
is written to in place. -/
structure Machine.Safe (answering : Answering) (q : Program) (costs : List Nat) (m : Machine) :
    Prop where
  pointer : ∀ k, m.next? = some k → k < q.size ∧ ∃ i, q.instructions[k]? = some i
  bounded : ∀ v, m.store.get v ≤ Store.largest
  cycles : m.cycles = min costs.sum Amount.largest
  jumps : ∀ program label,
    (m.step answering q).run ≠ some (.error (.undefinedLabel program label))
  inPlace : (stepInPlace answering q).run m = (m.step answering q).run.map m.written
  failing : ∀ e m', (stepInPlace answering q).run m = some (.error e, m') → m' = m

theorem Machine.eq_of_failing {answering : Answering} {q : Program} {m m' : Machine} {e : RunError}
    (assembled : q.Assembled) (inRange : m.InRange q)
    (failed : (stepInPlace answering q).run m = some (.error e, m')) : m' = m := by
  rw [run_stepInPlace assembled inRange] at failed
  obtain ⟨answer, -, left⟩ := Option.map_eq_some_iff.1 failed
  rcases answer with e | _ | v
  · exact (congrArg Prod.snd left).symm
  · cases left
  · cases left

namespace Evaluator

variable {ev : Evaluator} {p q : Program} {inputs : List Int64} {room : Nat}
  {costs : List Nat} {m : Machine}

/-- A run fails for many reasons, but no jump of it goes nowhere. -/
theorem step_ne_undefinedLabel (functions : ∀ f ∈ ev.functions.items, f.Assembled)
    (assembled : q.Assembled) (program : String) (label : Label) :
    (m.step (ev.answer room) q).run ≠ some (.error (.undefinedLabel program label)) := by
  intro failed
  have answers : ∀ i ∈ q.instructions.toList, ∀ c, i.op.call? = some c → ∀ s,
      (ev.answer room c s).FailsWith (· ≠ .undefinedLabel program label) := by
    intro i _ c _ s e failed
    obtain ⟨f, rfl⟩ | ⟨f, rfl⟩ | ⟨-, out, rfl⟩ := answer_failsWith ev functions room c s e failed
    all_goals exact RunError.noConfusion
  exact Machine.step_failsWith assembled answers m _ failed rfl

/-- What all machines of a run have in common. -/
structure Kept (q : Program) (costs : List Nat) (m : Machine) : Prop where
  assembled : q.Assembled
  inRange : m.InRange q
  bounded : m.store.Bounded
  cycles : m.cycles = min costs.sum Amount.largest

theorem Kept.step (functions : ∀ f ∈ ev.functions.items, f.Assembled) (kept : Kept q costs m)
    {v : Visit} (made : (m.step (ev.answer room) q).run = some (.ok (some v))) :
    Kept q (costs ++ [v.cost]) v.after where
  assembled := kept.assembled
  inRange := Machine.InRange.step kept.assembled made
  bounded := Machine.bounded_of_step (bounded_answer functions room) kept.bounded made
  cycles := by
    rw [Machine.cycles_of_step made, kept.cycles, Amount.sum, List.sum_append,
      List.sum_singleton]
    omega

theorem Kept.start {e : Entry} (assembled : e.program.Assembled) (bounded : e.store.Bounded) :
    Kept e.program [] (.start e.program e.store) where
  assembled := assembled
  inRange := Machine.inRange_start _ _
  bounded := bounded
  cycles := (Nat.zero_min _).symm

theorem Arises.kept (functions : ∀ f ∈ ev.functions.items, f.Assembled) (assembled : p.Assembled)
    (arises : ev.Arises p inputs room q costs m) : Kept q costs m := by
  induction arises with
  | start =>
    refine Kept.start (e := ⟨p, _, .result⟩) assembled (Store.bounded_ofInputs fun n mem => ?_)
    obtain ⟨input, -, rfl⟩ := List.mem_map.1 mem
    exact Store.natural_le_largest input
  | step _ made ih => exact ih.step functions made
  | @enter room left q costs m k i c inner yields e _ _ _ _ _ read entered ih =>
    obtain ⟨callee, -, runs⟩ := runs_of_entry functions entered
    exact .start runs.assembled
      (bounded_entry functions (bounded_answer functions left) ih.bounded read entered)

/-- Every machine that comes up is safe, whatever the inputs, and at every level of nesting. -/
theorem safe_of_arises (functions : ∀ f ∈ ev.functions.items, f.Built) (built : p.Built)
    (arises : ev.Arises p inputs room q costs m) : m.Safe (ev.answer room) q costs := by
  have callees : ∀ f ∈ ev.functions.items, f.Assembled := fun f mem => (functions f mem).assembled
  have kept := arises.kept callees built.assembled
  constructor
  · exact fun k next => ⟨kept.inRange k next, Program.exists_instruction (kept.inRange k next)⟩
  · exact kept.bounded
  · exact kept.cycles
  · exact step_ne_undefinedLabel callees kept.assembled
  · exact Machine.run_stepInPlace kept.assembled kept.inRange
  · exact fun e m' => Machine.eq_of_failing kept.assembled kept.inRange

/-- A function that counts its result up once. -/
def increment : Definition where
  name := "S"
  records := [{ name := "INCREASE", subject := "y" }]

def incrementing : Program where
  header := ⟨"S", "S", .function⟩
  degree := 0
  instructions := #[{ subject := .result, op := .increase, number := 1 }]
  positions := ∅
  inputs := ∅
  works := ∅
  names := {}

theorem ofDefinition_increment : Program.ofDefinition increment .function = .ok incrementing := rfl

def counting : Evaluator where
  functions := ⟨[(["s"], incrementing)]⟩
  strategy := .inline
  depthLimit := 1
  stepLimit := 9

/-- After its first step the program that counts down calls the function, which runs as a
scratch program at the last level of nesting, from the store that is empty. -/
theorem safe_of_arises_counting :
    ∃ q m, counting.Arises Expansion.steppingDown [-3] 0 q [] m ∧ q.size = 1 ∧
      m.next? = some 0 ∧ m.Safe (counting.answer 0) q [] := by
  have built : ∀ f ∈ counting.functions.items, f.Built :=
    List.forall_mem_singleton.2 (.loaded ofDefinition_increment)
  have callees : ∀ f ∈ counting.functions.items, f.Assembled := fun f mem => (built f mem).assembled
  have found : counting.functions.find? "S" = some incrementing := rfl
  have works : incrementing.works.size = 0 := rfl
  have inputs : incrementing.arity = 0 := by
    simp [Program.arity, incrementing]
  have names : (⟨"S", []⟩ : Call).namesNeeded incrementing ≤ Serial.last := by
    rw [Call.namesNeeded, works, inputs]
    decide
  obtain ⟨q, s, var, label, entered, size, -, -⟩ :=
    @exists_entry counting ⟨"S", []⟩ [] callees incrementing found (fun _ => names) rfl
  have started : counting.Arises Expansion.steppingDown [-3] 1 _ [] _ := .start
  have stepped := started.step (Machine.step_eq_some_iff.2 ⟨0, _, _, _, rfl, rfl, rfl, rfl, rfl⟩)
  have nested := stepped.enter rfl rfl rfl (.self 1 _) rfl entered
  refine ⟨q, _, nested, size, ?_, safe_of_arises built (.loaded Expansion.ofDefinition_countdown)
    nested⟩
  rw [Machine.start, if_neg (by rw [size]; decide)]

end Evaluator

end SLanguage
