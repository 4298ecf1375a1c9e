import SLanguage.Proofs.Calls.Strategies
import SLanguage.Proofs.Expansion.Degrees

/-! Degrees preserve meaning. Whatever variables a program declares, they end with the same
values in every degree of it, and no degree halts unless the program does or is too deep in
calls: a degree that has lowered calls has room for more of them. -/

namespace SLanguage

namespace Machine

/-- A machine halts in one way only. -/
theorem toHalt_unique {answering : Answering} {p : Program} {m last last' : Machine} {n n' : Nat}
    (first : m.toHalt answering p n = pure last)
    (second : m.toHalt answering p n' = pure last') : last = last' := by
  have first := drive_of_le (Nat.le_max_left n n') (toHalt_eq_pure_iff.1 first)
  have second := drive_of_le (Nat.le_max_right n n') (toHalt_eq_pure_iff.1 second)
  exact congrArg Prod.fst (Option.some.inj (first.symm.trans second))

end Machine

/-- The run of a program on inputs ends like this. Machines may take as many steps as they
need. -/
def Program.Ends (functions : Functions) (strategy : Strategy) (depthLimit : Nat) (p : Program)
    (inputs : List Int64) (r : Except RunError Machine) : Prop :=
  ∃ stepLimit, ((Machine.ofInputs p inputs).toHalt
    (Evaluator.answerAt { functions, strategy, depthLimit, stepLimit } 0) p stepLimit).run = some r

namespace Program

variable {functions : Functions} {p : Program}

/-- Where the calls of a program can be afforded, it ends alike under either strategy. -/
theorem ends_iff_of_affordable (assembled : ∀ f ∈ functions.items, f.Assembled)
    (affordable : ∀ i ∈ p.instructions.toList, ∀ c, i.op.call? = some c → c.Affordable functions)
    (strategy : Strategy) (depthLimit : Nat) (inputs : List Int64) (r : Except RunError Machine) :
    p.Ends functions strategy depthLimit inputs r ↔
      p.Ends functions .interpret depthLimit inputs r := by
  cases strategy with
  | interpret => rfl
  | inline =>
    refine exists_congr fun n => ?_
    have agrees : Attempt.Agrees (fun _ => False) Eq
        ((Machine.ofInputs p inputs).toHalt
          (Evaluator.answerAt ⟨functions, .inline, depthLimit, n⟩ 0) p n)
        ((Machine.ofInputs p inputs).toHalt
          (Evaluator.answerAt ⟨functions, .interpret, depthLimit, n⟩ 0) p n) := by
      refine Machine.toHalt_agrees (fun i mem c calls s => ?_) (Nat.le_refl n)
        (fun lt => absurd lt (Nat.lt_irrefl n)) _
      have affords : Evaluator.Affords ⟨functions, .interpret, depthLimit, n⟩ 0 c s :=
        (affordable i mem c calls).affords 0 s
      rw [← Evaluator.answerAt_inline assembled affords]
      exact .refl _
    rw [agrees.eq]

/-- More steps, also for the calls, do not change how a machine ends. -/
theorem run_toHalt_of_le (ev : Evaluator) {stepLimit n n' : Nat} (calls : ev.stepLimit ≤ stepLimit)
    (le : n ≤ n') {m : Machine} {r : Except RunError Machine}
    (ended : (m.toHalt (ev.answerAt 0) p n).run = some r) :
    (m.toHalt (Evaluator.answerAt { ev with stepLimit } 0) p n').run = some r := by
  have agrees : Attempt.Agrees (· = none) Eq (m.toHalt (ev.answerAt 0) p n)
      (m.toHalt (Evaluator.answerAt { ev with stepLimit } 0) p n') :=
    Machine.toHalt_agrees (fun i _ c _ s => ev.answer_agrees_of_le calls _ c s) le (fun _ => rfl) m
  exact agrees.run_eq ended

theorem ends_of_halts {depthLimit stepLimit : Nat} {inputs : List Int64} {n : Nat} {m : Machine}
    (halts : (Machine.ofInputs p inputs).toHalt
      (Evaluator.answerAt ⟨functions, .interpret, depthLimit, stepLimit⟩ 0) p n = pure m) :
    p.Ends functions .interpret depthLimit inputs (.ok m) :=
  ⟨max stepLimit n, run_toHalt_of_le ⟨functions, .interpret, depthLimit, stepLimit⟩
    (Nat.le_max_left ..) (Nat.le_max_right ..) (congrArg ExceptT.run halts)⟩

theorem Ends.unique {strategy : Strategy} {depthLimit : Nat} {inputs : List Int64}
    {first second : Except RunError Machine}
    (one : p.Ends functions strategy depthLimit inputs first)
    (other : p.Ends functions strategy depthLimit inputs second) : first = second := by
  obtain ⟨n, one⟩ := one
  obtain ⟨n', other⟩ := other
  have left : n ≤ max n n' := Nat.le_max_left ..
  have right : n' ≤ max n n' := Nat.le_max_right ..
  have one := run_toHalt_of_le ⟨functions, strategy, depthLimit, n⟩ left left one
  have other := run_toHalt_of_le ⟨functions, strategy, depthLimit, n'⟩ right right other
  exact Option.some.inj (one.symm.trans other)

end Program

namespace Expansion

/-- The machines have ended with the same values in the variables of the program. -/
def SameValues (p : Program) (m m' : Machine) : Prop :=
  ∀ v ∈ p.vars, m'.store.get v = m.store.get v

namespace Complete

variable {functions : Functions} {e : Expansion} (complete : e.Complete functions)
  {degree : Nat} {q : Program} (at_degree : e.generation? degree = some q)
  {depthLimit : Nat} {inputs : List Int64}

include complete at_degree

/-- The degree halts where the program does. -/
theorem ends {m : Machine} (halts : e.loaded.Ends functions .interpret depthLimit inputs (.ok m)) :
    ∃ m', q.Ends functions .interpret depthLimit inputs (.ok m') ∧ SameValues e.loaded m m' := by
  obtain ⟨n, halts⟩ := halts
  have preserves : Preserves ⟨functions, .interpret, depthLimit, n⟩ e.loaded q :=
    Complete.preserves rfl complete at_degree
  obtain ⟨n', m', halts', values⟩ := preserves.halts halts
  exact ⟨m', Program.ends_of_halts halts', fun v mem =>
    values v (complete.assembled.knows_of_mem_vars mem)⟩

/-- Where the degree halts, the program ends within the same steps. It does not get stuck
for want of a function, since the calls of the program could all be lowered. -/
theorem ends_or_tooDeep {m' : Machine}
    (halts' : q.Ends functions .interpret depthLimit inputs (.ok m')) :
    (∃ m, e.loaded.Ends functions .interpret depthLimit inputs (.ok m) ∧
      SameValues e.loaded m m') ∨
    ∃ f, e.loaded.Ends functions .interpret depthLimit inputs
      (.error (.callDepthExceeded f depthLimit)) := by
  obtain ⟨n, halts'⟩ := halts'
  have preserves : Preserves ⟨functions, .interpret, depthLimit, n⟩ e.loaded q :=
    Complete.preserves rfl complete at_degree
  have fails : ((Machine.ofInputs e.loaded inputs).toHalt
      (Evaluator.answerAt ⟨functions, .interpret, depthLimit, n⟩ 0) e.loaded n).FailsWith
      fun err => ∃ f, err = .callDepthExceeded f depthLimit := by
    refine Machine.toHalt_failsWith complete.assembled (fun i mem c calls s => ?_) n _
    have affordable : c.Affordable functions := complete.affordable (d := 0) rfl i mem c calls
    exact affordable.failsWith rfl complete.callees _ s
  cases ended : (Machine.ofInputs e.loaded inputs).toHalt
      (Evaluator.answerAt ⟨functions, .interpret, depthLimit, n⟩ 0) e.loaded n with
  | none =>
    rw [preserves.unfinished (Nat.le_refl n) ended] at halts'
    cases halts'
  | some r =>
    cases r with
    | error err =>
      obtain ⟨f, rfl⟩ := fails err ended
      exact .inr ⟨f, n, ended⟩
    | ok m =>
      obtain ⟨n', last, halts, values⟩ := preserves.halts ended
      obtain rfl := Machine.toHalt_unique halts halts'
      exact .inl ⟨m, ⟨n, ended⟩, fun v mem =>
        values v (complete.assembled.knows_of_mem_vars mem)⟩

end Complete

/-- Degrees preserve meaning. Where a program halts, every degree of it halts, with the same
values in all variables that the program declares. Where a degree halts, so does the program,
with the same values, or it stops because calls are nested too deep. -/
theorem degrees_preserve_values {functions : Functions}
    (assembled : ∀ f ∈ functions.items, f.Assembled) {d : Definition} {role : Role} {p : Program}
    (loaded : Program.ofDefinition d role = .ok p) {e : Expansion}
    (expanded : (ofProgram functions p).run = some (.ok e)) :
    e.generation 0 = .ok p ∧ ∀ degree ≤ e.topDegree, ∃ q, e.generation degree = .ok q ∧
      ∀ (strategy : Strategy) (depthLimit : Nat) (inputs : List Int64),
        (∀ m, p.Ends functions strategy depthLimit inputs (.ok m) →
          ∃ m', q.Ends functions strategy depthLimit inputs (.ok m') ∧ SameValues p m m') ∧
        ∀ m', q.Ends functions strategy depthLimit inputs (.ok m') →
          (∃ m, p.Ends functions strategy depthLimit inputs (.ok m) ∧ SameValues p m m') ∨
          ∃ f, p.Ends functions strategy depthLimit inputs
            (.error (.callDepthExceeded f depthLimit)) := by
  obtain ⟨complete, rfl⟩ := complete_of_ofProgram assembled loaded expanded
  refine ⟨rfl, fun degree le => ?_⟩
  obtain ⟨q, at_degree⟩ := exists_generation? le
  refine ⟨q, by rw [generation, at_degree], fun strategy depthLimit inputs => ?_⟩
  -- all calls of either can be afforded, so the strategy makes no difference
  have loaded_ends := Program.ends_iff_of_affordable assembled (complete.affordable (d := 0) rfl)
    strategy depthLimit inputs
  have degree_ends := Program.ends_iff_of_affordable assembled (complete.affordable at_degree)
    strategy depthLimit inputs
  simp only [loaded_ends, degree_ends]
  exact ⟨fun m halts => complete.ends at_degree halts,
    fun m' halts' => complete.ends_or_tooDeep at_degree halts'⟩

theorem run_eq_of_toOption {ε α : Type} {x : Attempt ε α} {a : α}
    (h : x.run.bind Except.toOption = some a) : x.run = some (.ok a) := by
  obtain ⟨r, ended, given⟩ := Option.bind_eq_some_iff.1 h
  cases r with
  | error e => cases given
  | ok b =>
    cases given
    exact ended

/-- Counts the first input down, calling a function each time. -/
def countdown : Definition where
  name := "D"
  records := [
    { name := "INCREASE", label? := some "L1", subject := "y" },
    { name := "QUOTE", subject := "z1", arguments := [("functionName", "S")] },
    { name := "DECREASE", subject := "x1" },
    { name := "JUMP_NOT_ZERO", subject := "x1", arguments := [("JNZLabel", "L1")] }]

def firstLabel : Label := .numbered .one

def firstWork : Variable := .work .one

def steppingDown : Program where
  header := ⟨"D", "D", .main⟩
  degree := 0
  instructions := #[
    { subject := .result, op := .increase, label := firstLabel, number := 1 },
    { subject := firstWork, op := .quote ⟨"S", []⟩, id := 1, number := 2 },
    { subject := firstInput, op := .decrease, id := 2, number := 3 },
    { subject := firstInput, op := .jumpNotZero firstLabel, id := 3, number := 4 }]
  positions := (∅ : Std.TreeMap Label Nat).insert firstLabel 0
  inputs := .ofList [firstInput, firstInput]
  works := .ofList [firstWork]
  names := { highestLabel := 1, highestWork := 1 }

theorem ofDefinition_countdown : Program.ofDefinition countdown .main = .ok steppingDown := rfl

/-- The call, which leaves out the argument, is lowered by hand: the largest entry of a tree
does not evaluate. -/
theorem exists_expansion_steppingDown :
    ∃ e, (ofProgram arithmetic steppingDown).run = some (.ok e) ∧ e.topDegree = 3 := by
  have top : ((ofProgram arithmetic steppingDown).run.bind Except.toOption).map topDegree =
      some 3 := by
    have found : arithmetic.find? "S" = some successor := rfl
    have rounds : roundLimit steppingDown = 4294967296 + 1 := by decide
    have basic : (base steppingDown).latest.isBasic = false := by decide +kernel
    have instructions : (base steppingDown).latest.instructions.toList =
      [ { subject := .result, op := .increase, label := firstLabel, number := 1 },
        { subject := firstWork, op := .quote ⟨"S", []⟩, id := 1, number := 2 },
        { subject := firstInput, op := .decrease, id := 2, number := 3 },
        { subject := firstInput, op := .jumpNotZero firstLabel, id := 3, number := 4 }] := rfl
    rw [ofProgram, rounds, grow, basic, advance, nextGeneration, instructions]
    simp only [lowerAll, Lowering.lower, Lowering.calling, Frame.splice, found, arity_successor]
    decide +kernel
  obtain ⟨e, expanded, degrees⟩ := Option.map_eq_some_iff.1 top
  exact ⟨e, run_eq_of_toOption expanded, degrees⟩

theorem ends_steppingDown : ∃ m, steppingDown.Ends arithmetic .interpret 1 [3] (.ok m) ∧
    steppingDown.vars.map m.store.get = [3, 0, 1] := by
  have values : (((Machine.ofInputs steppingDown [3]).toHalt
        (Evaluator.answerAt ⟨arithmetic, .interpret, 1, 20⟩ 0) steppingDown 20).run.bind
          Except.toOption).map (fun m => steppingDown.vars.map m.store.get) = some [3, 0, 1] := by
    decide +kernel
  obtain ⟨m, halts, values⟩ := Option.map_eq_some_iff.1 values
  exact ⟨m, ⟨20, run_eq_of_toOption halts⟩, values⟩

theorem degrees_preserve_values_steppingDown :
    ∃ e q m, (ofProgram arithmetic steppingDown).run = some (.ok e) ∧ e.generation 3 = .ok q ∧
      q.isBasic = true ∧ q.Ends arithmetic .interpret 1 [3] (.ok m) ∧
      steppingDown.vars.map m.store.get = [3, 0, 1] := by
  obtain ⟨e, expanded, top⟩ := exists_expansion_steppingDown
  obtain ⟨m, halts, values⟩ := ends_steppingDown
  obtain ⟨-, degrees⟩ :=
    degrees_preserve_values assembled_arithmetic ofDefinition_countdown expanded
  obtain ⟨q, at_top, same⟩ := degrees 3 (Nat.le_of_eq top.symm)
  obtain ⟨m', halts', kept⟩ := (same .interpret 1 [3]).1 m halts
  refine ⟨e, q, m', expanded, at_top, ?_, halts', ?_⟩
  · obtain ⟨complete, -⟩ :=
      complete_of_ofProgram assembled_arithmetic ofDefinition_countdown expanded
    have last : e.generation? 3 = some e.latest := top ▸ generation?_topDegree e
    rw [generation, last] at at_top
    cases at_top
    exact complete.basic
  · rw [← values]
    exact List.map_congr_left kept

end Expansion

end SLanguage
