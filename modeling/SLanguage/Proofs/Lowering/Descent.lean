import SLanguage.Proofs.Lowering.Afforded
import SLanguage.Proofs.Lowering.Callees
import SLanguage.Proofs.Ranks

/-! How ranks fall. What an instruction is lowered to has exactly one rank less, since a
block holds an instruction of that rank and none of a higher one. For assignments this rests
on the fresh variables: a copy from or to one of them is no assignment of a variable to
itself. -/

namespace SLanguage.Lowering

variable {body : String → Nat} {functions : Functions} {names after : Names} {i : Instruction}
  {v : Variable} {op : Operation} {block : List Instruction} {m n : Nat}

theorem rank_labelled (l : Label) (i : Instruction) :
    (labelled l i).rank body = i.rank body := rfl

theorem rank_assign {v w : Variable} (ne : w ≠ v) : (assign v w).rank body = 2 := by
  simp [assign, Instruction.rank, ne]

theorem rank_assign_le (v w : Variable) : (assign v w).rank body ≤ 2 := by
  by_cases eq : w = v <;> simp [assign, Instruction.rank, eq]

/-- Arguments are bound by assignments and calls, of which only the calls go beyond rank 2. -/
theorem rank_bindInputs_le_iff {slots : List Variable} {as : List Argument} (enough : 2 ≤ m)
    (length : as.length ≤ slots.length) :
    (∀ b ∈ bindInputs slots as, b.rank body ≤ m) ↔ ∀ a ∈ as, a.rank body ≤ m := by
  constructor
  · intro bound a mem
    cases a with
    | var w => exact Nat.zero_le m
    | call f inner =>
      obtain ⟨b, occurs, op⟩ : ∃ b ∈ bindInputs slots as, b.op = .quote ⟨f, inner⟩ :=
        mem_bindInputs length mem
      have le := bound b occurs
      rw [Instruction.rank, op] at le
      rwa [Argument.rank_call]
  · intro bound
    refine forall_mem_bindInputs (fun slot _ => Nat.le_of_succ_le enough) fun slot _ a mem => ?_
    cases a with
    | var w => exact Nat.le_trans (rank_assign_le slot w) enough
    | call f inner =>
      have le := bound _ mem
      rwa [Argument.rank_call] at le

/-- The body of a call has the rank of the callee. -/
theorem rank_body_le_iff {c : Call} {callee : Program} (assembled : callee.Assembled)
    (last : names.highestWork + c.namesNeeded callee ≤ Serial.last) :
    (∀ b ∈ (Inlined.frame c callee names).body, b.rank body ≤ m) ↔ callee.rank body ≤ m := by
  have same {i : Instruction} (mem : i ∈ callee.instructions.toList) :
      (Frame.detached ((Inlined.map c callee names).instruction i)).rank body = i.rank body := by
    obtain ⟨k, at_k⟩ := List.mem_iff_getElem?.1 mem
    rw [Array.getElem?_toList] at at_k
    have owned : ∀ v ∈ i.vars, v ∈ c.owned callee := fun v occurs =>
      Call.vars_subset_owned assembled v (assembled.vars_subset at_k v occurs)
    refine Instruction.rank_renamed rfl rfl fun v mem_v w mem_w eq => ?_
    exact Frame.var_injOn_owned assembled last v (owned v mem_v) w (owned w mem_w) eq
  rw [Program.rank_le_iff]
  constructor
  · intro bound i mem
    rw [← same mem]
    exact bound _ (List.mem_map_of_mem mem)
  · intro bound b occurs
    obtain ⟨i, mem, rfl⟩ := List.mem_map.1 occurs
    rw [same mem]
    exact bound i mem

theorem Drafted.rank_le_iff (assembled : ∀ f ∈ functions.items, f.Assembled)
    (drafted : Drafted functions names i.subject i.op block n) (gives : names.Gives after n)
    (knows : ∀ v ∈ i.vars, names.Knows v)
    (ranked : ∀ c, i.op.call? = some c → ∀ f, functions.find? c.function = some f →
      body c.function = f.rank body) :
    (∀ b ∈ block, b.rank body ≤ m) ↔ i.rank body ≤ m + 1 := by
  obtain ⟨v, op, label, id, origin?, number⟩ := i
  have apart {w z : Variable} (mem : z ∈ Drafting.worksAfter names.highestWork n)
      (known : names.Knows w) : z ≠ w := fun eq => gives.not_mem known (eq ▸ mem)
  have own : names.Knows v := knows v (List.mem_cons_self ..)
  change Drafted functions names v op block n at drafted
  cases drafted with
  | jumping => simp [jumpingBlock, increase, jumpNotZero, Instruction.rank]
  | keeping => simp [neutral, Instruction.rank]
  | @copying w ne l₁ l₂ l₃ =>
    simp [copyingBlock, labelled, zero, jumpNotZero, goto, decrease, increase, neutral,
      Instruction.rank, Ne.symm ne]
  | @countingUp k =>
    have up : ∀ b ∈ List.replicate k.toNat (increase v), b.rank body ≤ m := fun b mem =>
      List.eq_of_mem_replicate mem ▸ Nat.zero_le m
    rw [Lowering.countingUp, List.forall_mem_cons, and_iff_left up]
    simp [zero, Instruction.rank]
  | testingZero k =>
    simp [testingZeroBlock, labelled, jumpNotZero, goto, neutral, Instruction.rank]
  | @testingConstant k l d =>
    have ne := (apart (List.mem_singleton_self _) own).symm
    rw [testingConstantBlock, List.forall_mem_cons, List.forall_mem_append, rank_assign ne]
    constructor
    · exact fun bound => Nat.succ_le_succ bound.1
    · intro le
      have enough : 2 ≤ m := Nat.le_of_succ_le_succ le
      refine ⟨enough, forall_mem_countingDown (P := fun b => b.rank body ≤ m) enough
        (Nat.zero_le m) _, ?_⟩
      simp [labelled, jumpNotZero, goto, neutral, Instruction.rank]
      omega
  | @testingVariable w l l₁ l₂ l₃ =>
    have ne := (apart (List.mem_cons_self ..) own).symm
    rw [testingVariableBlock, List.forall_mem_cons, rank_assign ne]
    constructor
    · exact fun bound => Nat.succ_le_succ bound.1
    · intro le
      have enough : 2 ≤ m := Nat.le_of_succ_le_succ le
      refine ⟨enough, List.forall_mem_cons.2 ⟨Nat.le_trans (rank_assign_le _ _) enough, ?_⟩⟩
      simp [labelled, jumpZero, goto, decrease, neutral, Instruction.rank]
      omega
  | @calling c callee found labels =>
    have last := gives.le_last_of_call
    have callee_assembled := assembled callee (Functions.mem_items_of_find? found)
    obtain ⟨result, -⟩ :=
      Frame.slots_of_spliced (c := c) .redirect names callee_assembled (by omega)
    have drawn : (Inlined.frame c callee names).result ∈
        Drafting.worksAfter names.highestWork (c.namesNeeded callee) :=
      Drafting.mem_worksAfter.2 ⟨_, Nat.lt_succ_self _, by unfold Call.namesNeeded; omega, result⟩
    have copied : (Inlined.copyOut v (Inlined.frame c callee names)).rank body = 2 :=
      (rank_labelled ..).trans (rank_assign (apart drawn own))
    have length : c.arguments.length ≤ (Inlined.frame c callee names).inputs.length :=
      Frame.arguments_le_inputs .redirect names (by omega)
    have whole : c.rank body ≤ m + 1 ↔
        2 ≤ m ∧ callee.rank body ≤ m ∧ Argument.rankOf body c.arguments ≤ m := by
      rw [Call.rank, ranked c rfl callee found]
      omega
    change _ ↔ c.rank body ≤ m + 1
    rw [forall_mem_callingBlock, rank_body_le_iff callee_assembled last, copied, whole,
      Argument.rankOf_le_iff]
    constructor
    · rintro ⟨-, bound, -, inner, enough⟩
      exact ⟨enough, inner, (rank_bindInputs_le_iff enough length).1 bound⟩
    · rintro ⟨enough, inner, bound⟩
      have one : 1 ≤ m := Nat.le_of_succ_le enough
      exact ⟨one, (rank_bindInputs_le_iff enough length).2 bound, fun _ _ => one, inner, enough⟩
  | @testingCall c l =>
    have quoted : 3 ≤ c.rank body := by
      unfold Call.rank
      omega
    change (∀ b ∈ testingCallBlock _ c l _, b.rank body ≤ m) ↔ 1 + c.rank body ≤ m + 1
    rw [testingCallBlock, List.forall_mem_cons, List.forall_mem_singleton]
    change c.rank body ≤ m ∧ 3 ≤ m ↔ _
    omega

theorem Lowered.rank_le_iff (assembled : ∀ f ∈ functions.items, f.Assembled)
    (lowered : Lowered functions names i block n) (gives : names.Gives after n)
    (knows : ∀ v ∈ i.vars, names.Knows v)
    (ranked : ∀ c, i.op.call? = some c → ∀ f, functions.find? c.function = some f →
      body c.function = f.rank body) :
    (∀ b ∈ block, b.rank body ≤ m) ↔ i.rank body ≤ m + 1 := by
  cases lowered with
  | basic isBasic =>
    rw [List.forall_mem_singleton, Instruction.rank_eq_zero_iff.2 isBasic]
    exact iff_of_true (Nat.zero_le _) (Nat.zero_le _)
  | clearing op k own =>
    rw [Instruction.rank, op]
    simp [clearingBlock, labelled, decrease, jumpNotZero, Instruction.rank]
  | synthetic drafted =>
    rw [← drafted.rank_le_iff assembled gives knows ranked]
    obtain ⟨first, rest, rfl, unlabelled⟩ := drafted.exists_cons
    rw [withEntry_cons _ rest unlabelled, List.forall_mem_cons, List.forall_mem_cons,
      rank_labelled]

end SLanguage.Lowering
