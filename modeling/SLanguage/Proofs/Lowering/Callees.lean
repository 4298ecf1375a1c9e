import SLanguage.Proofs.CallGraph
import SLanguage.Proofs.Lowering.Contract

/-! What blocks call. A block calls what its instruction calls, and what the callee that it
splices in calls. So whatever is closed under calls is kept by lowering. -/

namespace SLanguage

mutual

theorem Argument.functions_rename (var : Variable → Variable) :
    ∀ a : Argument, (a.rename var).functions = a.functions
  | .var _ => rfl
  | .call f as => congrArg (f :: ·) (Argument.functionsOf_rename var as)

theorem Argument.functionsOf_rename (var : Variable → Variable) : ∀ as : List Argument,
    Argument.functionsOf (Argument.renameAll var as) = Argument.functionsOf as
  | [] => rfl
  | a :: as => by
    rw [Argument.renameAll, Argument.functionsOf, Argument.functions_rename var a,
      Argument.functionsOf_rename var as, Argument.functionsOf]

end

theorem Argument.functions_subset {a : Argument} {as : List Argument} (mem : a ∈ as) :
    a.functions ⊆ Argument.functionsOf as := by
  induction as with
  | nil => cases mem
  | cons b as ih =>
    obtain rfl | mem := List.mem_cons.1 mem
    · exact List.subset_append_left ..
    · exact List.Subset.trans (ih mem) (List.subset_append_right ..)

namespace Instruction

theorem calls_of_op_eq {i j : Instruction} (op : j.op = i.op) {name : String} :
    j.Calls name ↔ i.Calls name := by
  unfold Calls
  rw [op]

theorem calls_renamed {i j : Instruction} {var : Variable → Variable} {label : Label → Label}
    (op : j.op = i.op.rename var label) {name : String} : j.Calls name ↔ i.Calls name := by
  unfold Calls
  rw [op, Operation.call?_rename]
  constructor
  · rintro ⟨_, calls, named⟩
    obtain ⟨c, own, rfl⟩ := Option.map_eq_some_iff.1 calls
    refine ⟨c, own, ?_⟩
    rwa [Call.functions, Call.rename, Argument.functionsOf_rename] at named
  · rintro ⟨c, calls, named⟩
    refine ⟨c.rename var, by rw [calls]; rfl, ?_⟩
    rwa [Call.functions, Call.rename, Argument.functionsOf_rename]

theorem not_calls {i : Instruction} (silent : i.op.call? = none) (name : String) :
    ¬ i.Calls name := by
  rintro ⟨c, calls, -⟩
  cases silent.symm.trans calls

end Instruction

namespace Lowering

/-- The parts of the block of a call. -/
theorem forall_mem_callingBlock {P : Instruction → Prop} {v : Variable} {c : Call} {f : Frame} :
    (∀ b ∈ callingBlock v c f, P b) ↔
      P (zero f.result) ∧ (∀ b ∈ bindInputs f.inputs c.arguments, P b) ∧
        (∀ z ∈ f.works, P (zero z)) ∧ (∀ b ∈ f.body, P b) ∧ P (Inlined.copyOut v f) := by
  rw [Inlined.callingBlock_eq, bindInputs_nil, List.forall_mem_cons, List.forall_mem_append,
    List.forall_mem_append, List.forall_mem_append, List.forall_mem_map,
    List.forall_mem_singleton]

section Callees

variable {functions : Functions} {names : Names} {v : Variable} {op : Operation}
  {i : Instruction} {block : List Instruction} {n : Nat}

/-- Only the blocks of calls make calls. -/
theorem Drafted.call?_eq_none (drafted : Drafted functions names v op block n)
    (silent : op.call? = none) : ∀ b ∈ block, b.op.call? = none := by
  cases drafted with
  | countingUp =>
    exact List.forall_mem_cons.2 ⟨rfl, fun b mem => List.eq_of_mem_replicate mem ▸ rfl⟩
  | testingConstant k =>
    refine List.forall_mem_cons.2 ⟨rfl, List.forall_mem_append.2 ⟨?_, ?_⟩⟩
    · exact forall_mem_countingDown (P := fun b => b.op.call? = none) rfl rfl _
    · simp [labelled, neutral, goto, jumpNotZero, Operation.call?]
  | calling | testingCall => cases silent
  | _ =>
    simp [jumpingBlock, copyingBlock, testingZeroBlock, testingVariableBlock, labelled, neutral,
      increase, decrease, zero, assign, goto, jumpZero, jumpNotZero, Operation.call?]

/-- A call is not lowered without a work variable. -/
theorem Lowered.pos_of_call (lowered : Lowered functions names i block n) {c : Call}
    (calls : i.op.call? = some c) : 0 < n := by
  cases lowered with
  | basic basic =>
    unfold Instruction.isBasic Instruction.kind at basic
    cases op : i.op <;> rw [op] at calls basic <;> cases calls <;> cases basic
  | clearing op =>
    rw [op] at calls
    cases calls
  | synthetic drafted =>
    generalize i.op = op at drafted calls
    cases drafted with
    | calling => exact Nat.lt_of_lt_of_le (Nat.lt_add_right _ Nat.one_pos) (Nat.le_add_right ..)
    | testingCall => exact Nat.one_pos
    | _ => cases calls

variable {P : String → Prop}
  (closed : ∀ name f, P name → functions.find? name = some f → ∀ inner ∈ f.callees, P inner)

include closed

theorem Drafted.calls (drafted : Drafted functions names v op block n)
    (own : ∀ c, op.call? = some c → ∀ name ∈ c.functions, P name) :
    ∀ b ∈ block, ∀ name, b.Calls name → P name := by
  have silent {b : Instruction} (none : b.op.call? = .none) : ∀ name, b.Calls name → P name :=
    fun name calls => absurd calls (Instruction.not_calls none name)
  cases op with
  | quote c =>
    cases drafted with | @calling _ callee found labels =>
    have named := own c rfl
    refine forall_mem_callingBlock.2 ⟨silent rfl, forall_mem_bindInputs ?_ ?_, ?_, ?_, silent rfl⟩
    · exact fun slot _ => silent rfl
    · intro slot _ a mem name calls
      cases a with
      | var w => exact silent rfl name calls
      | call f as =>
        obtain ⟨c', calls, inner⟩ := calls
        cases calls
        exact named name (List.mem_cons_of_mem _ (Argument.functions_subset mem inner))
    · exact fun z _ => silent rfl
    · intro b mem name calls
      obtain ⟨i, occurs, rfl⟩ := List.mem_map.1 mem
      have calls : i.Calls name := (Instruction.calls_renamed rfl).1 calls
      have called := Program.mem_callees.2 ⟨i, occurs, calls⟩
      exact closed c.function callee (named _ (List.mem_cons_self ..)) found name called
  | jumpEqualFunction c l =>
    cases drafted
    refine List.forall_mem_cons.2 ⟨?_, List.forall_mem_singleton.2 (silent rfl)⟩
    rintro name ⟨c', calls, named⟩
    cases calls
    exact own c rfl name named
  | _ => exact fun b mem => silent (drafted.call?_eq_none rfl b mem)

theorem Lowered.calls (lowered : Lowered functions names i block n)
    (own : ∀ name, i.Calls name → P name) : ∀ b ∈ block, ∀ name, b.Calls name → P name := by
  cases lowered with
  | basic => exact List.forall_mem_singleton.2 own
  | clearing op k label =>
    have silent {b : Instruction} (none : b.op.call? = none) : ∀ name, b.Calls name → P name :=
      fun name calls => absurd calls (Instruction.not_calls none name)
    exact List.forall_mem_cons.2 ⟨silent rfl, List.forall_mem_singleton.2 (silent rfl)⟩
  | synthetic drafted =>
    have calls := drafted.calls closed fun c calls name named => own name ⟨c, calls, named⟩
    obtain ⟨first, rest, rfl, unlabelled⟩ := drafted.exists_cons
    rw [withEntry_cons _ rest unlabelled]
    obtain ⟨own, others⟩ := List.forall_mem_cons.1 calls
    exact List.forall_mem_cons.2 ⟨own, others⟩

end Callees

end Lowering

end SLanguage
