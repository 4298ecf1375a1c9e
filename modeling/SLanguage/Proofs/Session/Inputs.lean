import SLanguage.Proofs.Calls.Strategies
import SLanguage.Proofs.Machine.Inputs
import SLanguage.Proofs.Session.Credits
import SLanguage.Proofs.Session.Rounds

/-! Runs and sessions on inputs that differ only where the program declares none. They come out the
same: the outcome or the failure, what is paid, and all that a session shows on its way, whatever
is done with it. -/

namespace SLanguage

/-- Akin machines are run to the same outcome. -/
theorem Run.toEnd_akin (r : Run) {p : Program} (assembled : p.Assembled) {m m' : Machine}
    (akin : m.Akin p.vars m') (n : Nat) :
    (do return (← r.toEnd p n m').outcome p) = (do return (← r.toEnd p n m).outcome p) := by
  induction n generalizing m m' with
  | zero => rfl
  | succ n ih =>
    rw [toEnd, toEnd, akin.isRunning]
    split
    · rw [pure_bind, pure_bind, akin.outcome]
    · rw [bind_assoc, bind_assoc]
      refine bind_congr fun charges => ?_
      split
      · rfl
      · rw [bind_assoc, bind_assoc]
        refine (Metered.ofAttempt_bind_agrees
          (akin.step (r.evaluator.isLocal_answer _) assembled) ?_).symm
        intro v? v'? related
        cases related with
        | none => simp only [pure_bind, akin.outcome]
        | some step =>
          simp only [bind_assoc, step.cost]
          exact bind_congr fun _ => (ih step.after).symm

namespace Session

variable {s s' t t' : Session} {v v' : Visit}

/-- Two sessions at the same place of akin runs of a program. -/
structure Akin (s s' : Session) : Prop where
  assembled : s.program.Assembled
  run : s'.toRun = s.toRun
  program : s'.program = s.program
  origin : s.origin.Akin s.program.vars s'.origin
  past : List.Forall₂ (Visit.Akin s.program.vars) s.past s'.past
  future : List.Forall₂ (Visit.Akin s.program.vars) s.future s'.future
  breakpoints : s'.breakpoints = s.breakpoints
  state : s'.state = s.state

/-- Two sessions that show the same. -/
structure ShowsSame (s s' : Session) : Prop where
  state : s'.state = s.state
  breakpoints : s'.breakpoints = s.breakpoints
  position : s'.past.length = s.past.length
  current : s'.current = s.current
  atStart : s'.atStart = s.atStart
  last : s'.last = s.last
  log : s'.log = s.log

namespace Akin

theorem start (r : Run) {p : Program} (assembled : p.Assembled) {inputs inputs' : List Int64}
    (same : p.SameInputs inputs inputs') : (start r p inputs).Akin (start r p inputs') where
  assembled := assembled
  run := rfl
  program := rfl
  origin := .ofInputs assembled same
  past := .nil
  future := .nil
  breakpoints := rfl
  state := rfl

theorem machine (akin : s.Akin s') : s.machine.Akin s.program.vars s'.machine := by
  unfold Session.machine
  have related := akin.past
  generalize s.past = past at related
  generalize s'.past = past' at related
  cases related with
  | nil => exact akin.origin
  | cons latest => exact latest.after

theorem history (akin : s.Akin s') :
    List.Forall₂ (Visit.Akin s.program.vars) s.history s'.history :=
  List.rel_append (List.rel_reverse akin.past) akin.future

theorem snapshotAfter (akin : s.Akin s') {v? v'? : Option Visit}
    (related : Option.Rel (Visit.Akin s.program.vars) v? v'?) :
    s'.snapshotAfter v'? = s.snapshotAfter v? := by
  unfold Session.snapshotAfter
  cases related with
  | none => rw [akin.program, akin.origin.snapshot]
  | some step => simp only [akin.program, step.index, step.after.snapshot]

theorem head? {vars : List Variable} {steps steps' : List Visit}
    (related : List.Forall₂ (Visit.Akin vars) steps steps') :
    Option.Rel (Visit.Akin vars) steps.head? steps'.head? := by
  cases related with
  | nil => exact .none
  | cons step => exact .some step

theorem current (akin : s.Akin s') : s'.current = s.current :=
  akin.snapshotAfter (head? akin.past)

theorem showsSame (akin : s.Akin s') : s.ShowsSame s' where
  state := akin.state
  breakpoints := akin.breakpoints
  position := akin.past.length_eq.symm
  current := akin.current
  atStart := akin.snapshotAfter .none
  last := by
    unfold Session.last
    rw [List.getLast?_eq_head?_reverse, List.getLast?_eq_head?_reverse]
    exact akin.snapshotAfter (head? (List.rel_reverse akin.history))
  log := by
    have shown {v v' : Visit} (step : v.Akin s.program.vars v') :
        (s'.snapshotAfter (some v'), v'.cost) = (s.snapshotAfter (some v), v.cost) := by
      rw [akin.snapshotAfter (.some step), step.cost]
    unfold Session.log
    have related := akin.history
    generalize s.history = steps at related
    generalize s'.history = steps' at related
    induction related with
    | nil => rfl
    | cons step _ ih => exact congrArg₂ List.cons (shown step) ih

theorem arrived (akin : s.Akin s') : s.arrived.Akin s'.arrived where
  __ := akin
  state := by
    unfold Session.arrived
    rw [akin.machine.isRunning]

theorem payFor (akin : s.Akin s') (step : v.Akin s.program.vars v') (there : t.Akin t')
    (ledger : Ledger) :
    Option.Rel (Pairing.Outcomes (fun s l s' l' => s.Akin s' ∧ l' = l) s s')
      (some (s.payFor v t ledger)) (some (s'.payFor v' t' ledger)) := by
  unfold Session.payFor
  rw [akin.run, step.cost]
  generalize Metered.bill s.payer? v.cost ledger = billed
  obtain ⟨_ | _, ledger⟩ := billed
  · exact .some (.failed _ ⟨akin, rfl⟩)
  · exact .some (.moved ⟨there, rfl⟩)

theorem forward (akin : s.Akin s') (ledger : Ledger) :
    Option.Rel (Pairing.Outcomes (fun s l s' l' => s.Akin s' ∧ l' = l) s s')
      (s.forward.run ledger) (s'.forward.run ledger) := by
  have related := akin.future
  generalize known : s.future = future at related
  generalize known' : s'.future = future' at related
  cases related with
  | cons step rest =>
    rw [run_forward_replay known, run_forward_replay known']
    refine akin.payFor step (Akin.arrived ?_) ledger
    exact { akin with past := .cons step akin.past, future := rest }
  | nil =>
    rw [run_forward_fresh known, run_forward_fresh known']
    have next : Attempt.Agrees (fun _ => False) (Option.Rel (Visit.Akin s.program.vars))
        (s.machine.step (s.evaluator.answerAt 0) s.program)
        (s'.machine.step (s'.evaluator.answerAt 0) s'.program) := by
      rw [akin.run, akin.program]
      exact akin.machine.step (s.evaluator.isLocal_answer _) akin.assembled
    unfold nextStep
    obtain ⟨_, short, _⟩ | ⟨why, stopped, stopped'⟩ | ⟨v?, v'?, made, made', step⟩ := next
    · exact absurd short id
    · rw [stopped, stopped']
      cases why with
      | none => exact .none
      | some e => exact .some (.failed e ⟨akin, rfl⟩)
    · rw [made, made']
      cases step with
      | none => exact .some (.moved ⟨{ akin with state := rfl }, rfl⟩)
      | some step =>
        refine akin.payFor step (Akin.arrived ?_) ledger
        exact { akin with past := .cons step akin.past }

theorem back (akin : s.Akin s') (ledger : Ledger) :
    (s.back ledger).1.Akin (s'.back ledger).1 ∧ (s'.back ledger).2 = (s.back ledger).2 := by
  unfold Session.back
  have related := akin.past
  generalize before : s.past = past at related
  generalize before' : s'.past = past' at related
  cases related with
  | nil => exact ⟨akin, rfl⟩
  | cons step rest =>
    refine ⟨Akin.arrived { akin with past := rest, future := .cons step akin.future }, ?_⟩
    simp only [akin.run, step.cost]

end Akin

/-- Akin sessions do the same on one ledger. -/
theorem paired_akin : Paired fun s l s' l' => s.Akin s' ∧ l' = l where
  limit := by
    rintro s l s' _ ⟨akin, rfl⟩
    rw [akin.run]
  raised := by
    rintro s l s' _ ⟨akin, rfl⟩
    rw [akin.run]
  current := fun tied => tied.1.current
  running := fun tied => tied.1.machine.isRunning
  atBreakpoint := by
    rintro s l s' _ ⟨akin, rfl⟩
    rw [atBreakpoint, atBreakpoint, akin.machine.next, akin.breakpoints]
  state := fun _ tied => ⟨{ tied.1 with state := rfl }, tied.2⟩
  marks := fun _ tied => ⟨{ tied.1 with breakpoints := rfl }, tied.2⟩
  clear := by
    rintro s l s' _ ⟨akin, rfl⟩
    exact ⟨{ akin with run := by simp only [akin.run] }, rfl⟩
  forward := by
    rintro s _ s' l ⟨akin, rfl⟩
    exact akin.forward l
  back := by
    rintro s _ s' l ⟨akin, rfl⟩
    exact akin.back l

theorem Akin.play (akin : s.Akin s') (events : List Event) (ledger : Ledger) :
    Option.Rel (fun a b =>
        List.Forall₂ (fun x y => x.1.ShowsSame y.1 ∧ y.2 = x.2) a.1 b.1 ∧ b.2 = a.2)
      (play events s ledger) (Session.play events s' ledger) := by
  refine paired_akin.play (fun tied => tied.1.showsSame) (fun tied => tied.2) (fun e _ => ?_)
    ⟨akin, rfl⟩
  cases e with
  | move move =>
    cases move with
    | signal signal =>
      rintro s l s' _ ⟨akin, rfl⟩
      exact ⟨{ akin with run := by simp only [akin.run] }, rfl⟩
    | _ => trivial
  | deposit user amount =>
    rintro s l s' _ ⟨akin, rfl⟩
    exact ⟨akin, rfl⟩

end Session

/-- Runs and sessions do not tell the two lists of inputs apart. A run ends alike and leaves the
same ledger, and sessions show the same before the first move and after every other one, whatever
the ledger holds and whoever uses it in between. -/
def Run.TreatsAlike (r : Run) (p : Program) (inputs inputs' : List Int64) : Prop :=
  r.perform p inputs' = r.perform p inputs ∧
    (Session.start r p inputs).ShowsSame (Session.start r p inputs') ∧
    ∀ events ledger, Option.Rel (fun a b =>
        List.Forall₂ (fun x y => x.1.ShowsSame y.1 ∧ y.2 = x.2) a.1 b.1 ∧ b.2 = a.2)
      (Session.play events (Session.start r p inputs) ledger)
      (Session.play events (Session.start r p inputs') ledger)

theorem Run.treatsAlike_of_sameInputs (r : Run) {p : Program} (assembled : p.Assembled)
    {inputs inputs' : List Int64} (same : p.SameInputs inputs inputs') :
    r.TreatsAlike p inputs inputs' :=
  have akin := Session.Akin.start r assembled same
  ⟨r.toEnd_akin assembled (.ofInputs assembled same) _, akin.showsSame, akin.play⟩

/-- A run depends on the inputs that its program declares and on nothing else in the list, under
either strategy and any limits. Lists whose numbers agree there make no difference to runs, failing
ones among them, to what is paid, and to what sessions show. In particular zeros at the end make
none, and neither do numbers beyond the highest input that is declared. -/
theorem Run.depends_on_declared (r : Run) {p : Program} (assembled : p.Assembled) :
    (∀ inputs inputs', p.SameInputs inputs inputs' → r.TreatsAlike p inputs inputs') ∧
    (∀ inputs n, r.TreatsAlike p inputs (inputs ++ List.replicate n 0)) ∧
    ∀ inputs surplus, p.arity ≤ inputs.length → r.TreatsAlike p inputs (inputs ++ surplus) := by
  refine ⟨fun _ _ => r.treatsAlike_of_sameInputs assembled, fun inputs n => ?_,
    fun inputs surplus enough => ?_⟩
  · exact r.treatsAlike_of_sameInputs assembled (.zeros p inputs n)
  · exact r.treatsAlike_of_sameInputs assembled (.surplus assembled enough surplus)

/-- The only input of `addingTwo` stands in a call inside a call. It is 0 for a negative number,
and a second number does not count. -/
theorem Run.depends_on_declared_addingTwo :
    let r : Run := { evaluator := { functions := arithmetic, strategy := .inline, stepLimit := 9 } }
    addingTwo.SameInputs [-3] [0, 7] ∧ r.TreatsAlike addingTwo [-3] [0, 7] ∧
      addingTwo.arity ≤ 1 ∧ r.TreatsAlike addingTwo [1] [1, 7] := by
  intro r
  have assembled : addingTwo.Assembled :=
    ⟨addingTwo.header, 0, addingTwo.instructions.toList, {}, rfl⟩
  have arity : addingTwo.arity ≤ 1 := by
    simp [Program.arity, addingTwo, Std.TreeSet.max?_insert, firstInput, Variable.serial,
      Serial.one]
  have same : addingTwo.SameInputs [-3] [0, 7] := by
    intro n declared
    have pos := n.val_pos
    have le := assembled.serial_le_arity declared
    have first : n.val - 1 = 0 := by omega
    rw [first]
    rfl
  obtain ⟨alike, -, surplus⟩ := depends_on_declared r assembled
  exact ⟨same, alike _ _ same, arity, surplus [1] [7] arity⟩

end SLanguage
