import SLanguage.Proofs.Calls.Affordable
import SLanguage.Proofs.Lowering.Contract

/-! Calls that have been lowered. The block of a call holds the calls in its arguments and
those in the body of its callee, under other names. If these can be afforded, so can the
call, since there have been names enough for its callee. -/

namespace SLanguage

theorem Program.Holds.exists_mem {p : Program} {start : Nat} {block : List Instruction}
    (holds : p.Holds start block) {b : Instruction} (mem : b ∈ block) :
    ∃ i ∈ p.instructions.toList, i.op = b.op := by
  obtain ⟨j, at_j⟩ := List.mem_iff_getElem?.1 mem
  obtain ⟨i, at_i, -, op, -⟩ := holds j b at_j
  exact ⟨i, List.mem_of_getElem? (Array.getElem?_toList.trans at_i), op⟩

namespace Lowering

/-- Every argument is bound to a slot if there are slots enough. -/
theorem exists_bindInput_mem {slots : List Variable} {as : List Argument}
    (length : as.length ≤ slots.length) {a : Argument} (mem : a ∈ as) :
    ∃ slot, bindInput slot (some a) ∈ bindInputs slots as := by
  induction slots generalizing as with
  | nil =>
    rw [List.eq_nil_of_length_eq_zero (Nat.le_zero.1 length)] at mem
    cases mem
  | cons slot slots ih =>
    cases as with
    | nil => cases mem
    | cons b as =>
      obtain rfl | mem := List.mem_cons.1 mem
      · exact ⟨slot, List.mem_cons_self ..⟩
      · obtain ⟨slot', later⟩ := ih (Nat.le_of_succ_le_succ length) mem
        exact ⟨slot', List.mem_cons_of_mem _ later⟩

theorem mem_bindInputs {slots : List Variable} {as : List Argument} {inner : Call}
    (length : as.length ≤ slots.length) (mem : .call inner.function inner.arguments ∈ as) :
    ∃ i ∈ bindInputs slots as, i.op = .quote inner := by
  obtain ⟨slot, bound⟩ := exists_bindInput_mem length mem
  exact ⟨_, bound, rfl⟩

/-- A call has been lowered with its arguments and its body, so it can be afforded if what
has become of them can. -/
theorem Drafted.affordable {functions : Functions}
    (assembled : ∀ f ∈ functions.items, f.Assembled) {names after : Names} {v : Variable}
    {op : Operation} {block : List Instruction} {n : Nat}
    (drafted : Drafted functions names v op block n) (gives : names.Gives after n) {p : Program}
    (program : p.Assembled) {start : Nat} (holds : p.Holds start block)
    (rest : ∀ i ∈ p.instructions.toList, ∀ c, i.op.call? = some c → c.Affordable functions)
    {c : Call} (calls : op.call? = some c) : c.Affordable functions := by
  cases drafted with
  | @calling c' callee found labels =>
    obtain rfl := Option.some.inj calls
    have inlined := inlined_of_gives assembled program found labels gives holds
    refine .intro found inlined.le_last (fun inner mem => ?_) fun i inner mem called => ?_
    · obtain ⟨b, mem, op⟩ := mem_bindInputs inlined.arguments_le_inputs mem
      obtain ⟨i, occurs, same⟩ := inlined.holds_inputs.append.1.exists_mem mem
      exact rest i occurs inner (by rw [same, op]; rfl)
    · obtain ⟨i', occurs, same⟩ := inlined.holds_body.append.1.exists_mem (List.mem_map_of_mem mem)
      refine (rest i' occurs (inner.rename (Inlined.map c' callee names).var) ?_).of_rename
      rw [same]
      change (i.op.rename _ _).call? = _
      cases op : i.op <;> rw [op] at called <;> cases called <;> rfl
  | testingCall =>
    obtain rfl := Option.some.inj calls
    obtain ⟨i, occurs, same⟩ := holds.exists_mem (List.mem_cons_self ..)
    exact rest i occurs _ (by rw [same]; rfl)
  | _ => cases calls

theorem Lowered.affordable {functions : Functions}
    (assembled : ∀ f ∈ functions.items, f.Assembled) {names after : Names} {i : Instruction}
    {block : List Instruction} {n : Nat}
    (lowered : Lowered functions names i block n) (gives : names.Gives after n) {p : Program}
    (program : p.Assembled) {start : Nat} (holds : p.Holds start block)
    (rest : ∀ i ∈ p.instructions.toList, ∀ c, i.op.call? = some c → c.Affordable functions)
    {c : Call} (calls : i.op.call? = some c) : c.Affordable functions := by
  cases lowered with
  | basic =>
    obtain ⟨j, occurs, same⟩ := holds.exists_mem (List.mem_singleton_self i)
    exact rest j occurs c (by rw [same, calls])
  | clearing op k own =>
    rw [op] at calls
    cases calls
  | synthetic drafted =>
    obtain ⟨first, others, rfl, unlabelled⟩ := drafted.exists_cons
    rw [withEntry_cons _ others unlabelled] at holds
    exact drafted.affordable assembled gives program (holds.of_labelled unlabelled) rest calls

end Lowering

end SLanguage
