import SLanguage.Proofs.Calls.Affordable
import SLanguage.Proofs.Metering

/-! The strategies. Evaluating a call by running its callee as it is and by running it
under fresh names comes to the same, result or failure, and so does every run of a
program. It is enough that there are names for the callees that are entered. -/

namespace SLanguage

namespace Evaluator

/-- Evaluating a call, at a level of nesting, ends like this. Machines may take as many
steps as they need. -/
def Returns (functions : Functions) (strategy : Strategy) (depthLimit depth : Nat) (c : Call)
    (s : Store) (r : Except RunError Yield) : Prop :=
  ∃ stepLimit, (answerAt { functions, strategy, depthLimit, stepLimit } depth c s).run = some r

theorem Returns.unique {functions : Functions} {strategy : Strategy} {depthLimit depth : Nat}
    {c : Call} {s : Store} {r r' : Except RunError Yield}
    (first : Returns functions strategy depthLimit depth c s r)
    (second : Returns functions strategy depthLimit depth c s r') : r = r' := by
  obtain ⟨n, first⟩ := first
  obtain ⟨n', second⟩ := second
  have first := answer_of_le ⟨functions, strategy, depthLimit, n⟩ (Nat.le_max_left n n') first
  have second := answer_of_le ⟨functions, strategy, depthLimit, n'⟩ (Nat.le_max_right n n')
    second
  exact Option.some.inj (first.symm.trans second)

/-- Under either strategy a call gives the same, given the same steps and names enough. -/
theorem answerAt_inline {functions : Functions}
    (assembled : ∀ f ∈ functions.items, f.Assembled) {depthLimit stepLimit depth : Nat}
    {c : Call} {s : Store}
    (affords : Affords ⟨functions, .interpret, depthLimit, stepLimit⟩ depth c s) :
    answerAt ⟨functions, .interpret, depthLimit, stepLimit⟩ depth c s =
      answerAt ⟨functions, .inline, depthLimit, stepLimit⟩ depth c s := by
  have agrees : Attempt.Agrees (fun _ => False) Eq
      (answerAt ⟨functions, .interpret, depthLimit, stepLimit⟩ depth c s)
      (answerAt ⟨functions, .inline, depthLimit, stepLimit⟩ depth (c.rename id) s) := by
    refine answer_agrees ⟨functions, .interpret, depthLimit, stepLimit⟩
      ⟨functions, .inline, depthLimit, stepLimit⟩ rfl rfl rfl assembled (Nat.le_refl _) ?_
      (Nat.le_refl _) ?_ ?_ ?_
    · exact fun lt => absurd lt (Nat.lt_irrefl _)
    · exact fun lt => absurd lt (Nat.lt_irrefl _)
    · exact fun _ _ => rfl
    · exact fun _ => affords
  rw [Call.rename_id] at agrees
  exact agrees.eq

end Evaluator

/-- Attempts that agree can stand for each other in work that does the same with their values. -/
theorem Metered.ofAttempt_bind_agrees {ε α β γ : Type} {R : α → β → Prop} {x : Attempt ε α}
    {y : Attempt ε β} {f : α → Metered ε γ} {g : β → Metered ε γ}
    (agrees : Attempt.Agrees (fun _ => False) R x y) (next : ∀ a b, R a b → f a = g b) :
    (ofAttempt x >>= f) = (ofAttempt y >>= g) := by
  obtain ⟨_, short, _⟩ | ⟨why, rfl, rfl⟩ | ⟨a, b, rfl, rfl, related⟩ := agrees
  · exact absurd short id
  · cases why <;> rfl
  · exact next a b related

theorem Metered.ofAttempt_bind_congr {ε α β : Type} {x : Attempt ε α} {f g : α → Metered ε β}
    (next : ∀ a, x = pure a → f a = g a) : (ofAttempt x >>= f) = (ofAttempt x >>= g) := by
  refine ofAttempt_bind_agrees (Attempt.Agrees.refl x).with_values ?_
  rintro a _ ⟨rfl, made, -⟩
  exact next a made

namespace Run

/-- The evaluator of the run has names enough for every callee that the run enters. -/
def Affords (r : Run) (p : Program) (inputs : List Int64) : Prop :=
  ∀ m k i c, (Machine.ofInputs p inputs).Leads (r.evaluator.answerAt 0) p m →
    m.next? = some k → p.instructions[k]? = some i → i.op.call? = some c →
      r.evaluator.Affords 0 c m.store

theorem affords_of_affordable {r : Run} {p : Program}
    (affordable : ∀ i ∈ p.instructions.toList, ∀ c, i.op.call? = some c →
      c.Affordable r.evaluator.functions) (inputs : List Int64) : r.Affords p inputs := by
  intro m k i c leads next at_k calls
  exact (affordable i (List.mem_of_getElem? (Array.getElem?_toList.trans at_k)) c calls).affords
    0 m.store

theorem toEnd_congr (r r' : Run) (payer : r'.payer? = r.payer?) (signal : r'.signal = r.signal)
    {p : Program} {m : Machine}
    (calls : ∀ m₁ k i c, m.Leads (r.evaluator.answerAt 0) p m₁ → m₁.next? = some k →
      p.instructions[k]? = some i → i.op.call? = some c →
        r.evaluator.answerAt 0 c m₁.store = r'.evaluator.answerAt 0 c m₁.store) (limit : Nat) :
    r.toEnd p limit m = r'.toEnd p limit m := by
  induction limit generalizing m with
  | zero => rfl
  | succ limit ih =>
    rw [toEnd, toEnd, payer, signal,
      ← Machine.step_congr fun k i c => calls m k i c (.refl m)]
    have rest : ∀ v : Visit, m.step (r.evaluator.answerAt 0) p = pure (some v) →
        r.toEnd p limit v.after = r'.toEnd p limit v.after := fun v made =>
      ih fun m₁ k i c leads => calls m₁ k i c (.step (congrArg ExceptT.run made) leads)
    simp only
    split
    · rfl
    · refine bind_congr fun charges => ?_
      split
      · rw [Keeping.throw_bind, Keeping.throw_bind]
      · refine Metered.ofAttempt_bind_congr ?_
        rintro (_ | v) made
        · rfl
        · simp only [rest v made]

end Run

/-- The strategies agree. If there are names enough for the callees that are entered,
evaluating a call ends under the one if it does under the other, and then with the same
value and cycles or the same error, which is that a function is unknown or that calls are
nested too deep. Runs of programs come out the same, down to the ledger. -/
theorem Evaluator.strategies_agree (functions : Functions)
    (assembled : ∀ f ∈ functions.items, f.Assembled) (depthLimit : Nat) :
    (∀ depth c s,
      (∀ stepLimit, Affords ⟨functions, .interpret, depthLimit, stepLimit⟩ depth c s) →
        ((∃ r, Returns functions .interpret depthLimit depth c s r) ↔
          ∃ r, Returns functions .inline depthLimit depth c s r) ∧
        (∀ r r', Returns functions .interpret depthLimit depth c s r →
          Returns functions .inline depthLimit depth c s r' → r = r') ∧
        ∀ e, Returns functions .interpret depthLimit depth c s (.error e) →
          (∃ f, e = .unknownFunction f) ∨ ∃ f, e = .callDepthExceeded f depthLimit) ∧
    ∀ stepLimit payer? signal p inputs,
      Run.Affords ⟨⟨functions, .interpret, depthLimit, stepLimit⟩, payer?, signal⟩ p inputs →
        Run.perform ⟨⟨functions, .interpret, depthLimit, stepLimit⟩, payer?, signal⟩ p inputs =
          Run.perform ⟨⟨functions, .inline, depthLimit, stepLimit⟩, payer?, signal⟩ p inputs := by
  refine ⟨fun depth c s affords => ?_, fun stepLimit payer? signal p inputs affords => ?_⟩
  · have same : ∀ r, Returns functions .interpret depthLimit depth c s r ↔
        Returns functions .inline depthLimit depth c s r := by
      intro r
      refine exists_congr fun stepLimit => ?_
      rw [answerAt_inline assembled (affords stepLimit)]
    refine ⟨exists_congr same, fun r r' first second => ?_, fun e failed => ?_⟩
    · exact first.unique ((same r').2 second)
    · obtain ⟨stepLimit, failed⟩ := failed
      obtain unknown | deep | ⟨inline, -⟩ := answer_failsWith _ assembled _ c s e failed
      · exact .inl unknown
      · exact .inr deep
      · cases inline
  · have same : Run.toEnd ⟨⟨functions, .interpret, depthLimit, stepLimit⟩, payer?, signal⟩ p
        stepLimit (.ofInputs p inputs) =
        Run.toEnd ⟨⟨functions, .inline, depthLimit, stepLimit⟩, payer?, signal⟩ p
          stepLimit (.ofInputs p inputs) := by
      apply Run.toEnd_congr ⟨⟨functions, .interpret, depthLimit, stepLimit⟩, payer?, signal⟩
        ⟨⟨functions, .inline, depthLimit, stepLimit⟩, payer?, signal⟩ rfl rfl
      intro m k i c leads next at_k calls
      exact answerAt_inline assembled (affords m k i c leads next at_k calls)
    unfold Run.perform
    rw [same]

def firstInput : Variable := .input .one

/-- The successor of the first input. -/
def successor : Program where
  header := ⟨"S", "S", .function⟩
  degree := 0
  instructions := #[
    { subject := .result, op := .assignment firstInput, number := 1 },
    { subject := .result, op := .increase, number := 2 }]
  positions := ∅
  inputs := .ofList [firstInput]
  works := ∅
  names := {}

theorem assembled_successor : successor.Assembled :=
  ⟨successor.header, 0, successor.instructions.toList, {}, rfl⟩

def arithmetic : Functions := ⟨[(["s"], successor)]⟩

theorem assembled_arithmetic : ∀ f ∈ arithmetic.items, f.Assembled := by
  intro f mem
  obtain rfl : f = successor := by simpa [arithmetic, Catalog.items] using mem
  exact assembled_successor

theorem arity_successor : successor.arity = 1 := by
  simp [Program.arity, successor, Std.TreeSet.max?_insert, firstInput, Variable.serial, Serial.one]

theorem affordable_successor (a : Argument)
    (inner : ∀ c : Call, a = .call c.function c.arguments → c.Affordable arithmetic) :
    (⟨"S", [a]⟩ : Call).Affordable arithmetic := by
  have found : arithmetic.find? "S" = some successor := rfl
  have only : ∀ c : Call, .call c.function c.arguments ∈ [a] → c.Affordable arithmetic :=
    fun c mem => inner c (List.mem_singleton.1 mem).symm
  refine .intro found ?_ only fun i c mem calls => ?_
  · have works : successor.works.size = 0 := rfl
    simp [Call.namesNeeded, arity_successor, works, Serial.last]
  · have none : ∀ i ∈ successor.instructions.toList, i.op.call? = none := by decide
    rw [none i mem] at calls
    cases calls

/-- The successor of the successor of the first input. -/
def twice : Call := ⟨"S", [.call "S" [.var firstInput]]⟩

theorem affordable_twice : twice.Affordable arithmetic := by
  refine affordable_successor _ ?_
  rintro ⟨f, as⟩ eq
  cases eq
  exact affordable_successor _ fun c eq => nomatch eq

def addingTwo : Program where
  header := ⟨"T", "T", .main⟩
  degree := 0
  instructions := #[{ subject := .result, op := .quote twice, number := 1 }]
  positions := ∅
  inputs := .ofList [firstInput]
  works := ∅
  names := {}

theorem strategies_agree_twice :
    Evaluator.Returns arithmetic .inline 2 0 twice (.ofInputs [1]) (.ok ⟨3, 10⟩) ∧
      Run.perform ⟨⟨arithmetic, .interpret, 2, 9⟩, none, {}⟩ addingTwo [1] =
        Run.perform ⟨⟨arithmetic, .inline, 2, 9⟩, none, {}⟩ addingTwo [1] := by
  obtain ⟨calls, runs⟩ := Evaluator.strategies_agree arithmetic assembled_arithmetic 2
  obtain ⟨ends, same, -⟩ := calls 0 twice (.ofInputs [1]) fun _ => affordable_twice.affords _ _
  have interpreted : Evaluator.Returns arithmetic .interpret 2 0 twice (.ofInputs [1])
      (.ok ⟨3, 10⟩) := ⟨3, by decide +kernel⟩
  refine ⟨?_, runs 9 none {} addingTwo [1] ?_⟩
  · obtain ⟨r, inlined⟩ := ends.1 ⟨_, interpreted⟩
    rw [← same _ r interpreted inlined] at inlined
    exact inlined
  · refine Run.affords_of_affordable (fun i mem c calls => ?_) [1]
    obtain rfl := List.mem_singleton.1 mem
    cases calls
    exact affordable_twice

end SLanguage
