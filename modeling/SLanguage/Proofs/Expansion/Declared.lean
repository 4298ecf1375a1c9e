import SLanguage.Proofs.Expansion.Meaning
import SLanguage.Proofs.Lowering.Descent

/-! Which variables the degrees declare. A degree lists what its instructions mention, and
blocks mention what their instruction reads or writes. The subject of a plain jump is neither
read nor written, and no block mentions it, so a variable that only occurs there is lost when
the jump is lowered. All others stay listed, with the same values in the end. -/

namespace SLanguage

namespace Instruction

/-- The variables that are read or written. A plain jump carries its subject along without
use. -/
def accessed (i : Instruction) : List Variable :=
  match i.op with
  | .gotoLabel _ => []
  | _ => i.vars

theorem accessed_subset_vars (i : Instruction) : i.accessed ⊆ i.vars := by
  unfold accessed
  split
  · exact List.nil_subset _
  · exact List.Subset.refl _

theorem accessed_of_op_eq {i j : Instruction} (subject : j.subject = i.subject) (op : j.op = i.op) :
    j.accessed = i.accessed := by
  rw [accessed, accessed, vars, vars, subject, op]

/-- Beside the result, the instruction mentions none but these variables. -/
def Within (vars : List Variable) (i : Instruction) : Prop :=
  ∀ w ∈ i.vars, w = .result ∨ w ∈ vars

theorem Within.of_subset {vars : List Variable} {i : Instruction} (subset : i.vars ⊆ vars) :
    i.Within vars :=
  fun _ occurs => .inr (subset occurs)

theorem accessed_of_isBasic {i : Instruction} (basic : i.isBasic = true) : i.accessed = i.vars := by
  unfold isBasic kind at basic
  unfold accessed
  split
  · rename_i op
    rw [op] at basic
    cases basic
  · rfl

end Instruction

/-- The program reads or writes the variable. -/
def Program.Accesses (p : Program) (v : Variable) : Prop :=
  ∃ i ∈ p.instructions.toList, v ∈ i.accessed

theorem Program.Accesses.mem_vars {p : Program} {v : Variable} (own : p.Accesses v)
    (assembled : p.Assembled) : v ∈ p.vars := by
  obtain ⟨i, occurs, accessed⟩ := own
  exact assembled.mem_vars_iff.2 (.inr ⟨i, occurs, i.accessed_subset_vars accessed⟩)

theorem Argument.mem_variablesOf_iff {as : List Argument} {v : Variable} :
    v ∈ Argument.variablesOf as ↔ ∃ a ∈ as, v ∈ a.vars := by
  induction as with
  | nil => simp [Argument.variablesOf]
  | cons a as ih => simp [Argument.variablesOf, ih]

namespace Lowering

theorem vars_bindInput (slot : Variable) (a : Argument) :
    (bindInput slot (some a)).vars = slot :: a.vars := by
  cases a <;> rfl

theorem accessed_bindInput (slot : Variable) (a : Argument) :
    (bindInput slot (some a)).accessed = slot :: a.vars := by
  cases a <;> rfl

section Accessed

variable {functions : Functions} {names after : Names} {i : Instruction}
  {block : List Instruction} {n : Nat}

/-- What an instruction reads or writes, its block does too. -/
theorem Drafted.exists_accessed (drafted : Drafted functions names i.subject i.op block n)
    (gives : names.Gives after n) {w : Variable} (mem : w ∈ i.accessed) :
    ∃ b ∈ block, w ∈ b.accessed := by
  obtain ⟨v, op, label, id, origin?, number⟩ := i
  change Drafted functions names v op block n at drafted
  cases drafted with
  | jumping => cases mem
  | keeping | countingUp | testingZero =>
    obtain rfl : w = v := by
      simpa [Instruction.accessed, Instruction.vars, Operation.operands] using mem
    exact ⟨_, List.mem_cons_self .., List.mem_cons_self ..⟩
  | testingConstant =>
    obtain rfl := List.mem_singleton.1 mem
    exact ⟨_, List.mem_cons_self .., List.mem_cons_of_mem _ (List.mem_singleton_self _)⟩
  | copying =>
    obtain rfl | own := List.mem_cons.1 mem
    · exact ⟨_, List.mem_cons_self .., List.mem_cons_self ..⟩
    · obtain rfl := List.mem_singleton.1 own
      exact ⟨_, List.mem_cons_of_mem _ (List.mem_cons_self ..), List.mem_cons_self ..⟩
  | testingVariable =>
    obtain rfl | own := List.mem_cons.1 mem
    · exact ⟨_, List.mem_cons_self .., List.mem_cons_of_mem _ (List.mem_singleton_self _)⟩
    · exact ⟨_, List.mem_cons_of_mem _ (List.mem_cons_self ..), List.mem_cons_of_mem _ own⟩
  | @calling c callee found labels =>
    obtain rfl | occurs := List.mem_cons.1 mem
    · exact ⟨Inlined.copyOut w (Inlined.frame c callee names),
        List.mem_append_right _ (List.mem_singleton_self _), List.mem_cons_self ..⟩
    · obtain ⟨a, given, own⟩ := Argument.mem_variablesOf_iff.1 occurs
      have le := Nat.le_trans (Nat.le_add_left ..) gives.le_last_of_call
      obtain ⟨slot, bound⟩ :=
        exists_bindInput_mem (Frame.arguments_le_inputs .redirect names le) given
      refine ⟨_, ?_, (accessed_bindInput slot a).symm ▸ List.mem_cons_of_mem _ own⟩
      exact List.mem_append_left _ (List.mem_append_left _ (List.mem_append_left _
        (List.mem_cons_of_mem _ bound)))
  | testingCall =>
    obtain rfl | occurs := List.mem_cons.1 mem
    · exact ⟨_, List.mem_cons_of_mem _ (List.mem_singleton_self _), List.mem_cons_self ..⟩
    · exact ⟨_, List.mem_cons_self .., List.mem_cons_of_mem _ occurs⟩

theorem Lowered.exists_accessed (lowered : Lowered functions names i block n)
    (gives : names.Gives after n) {w : Variable} (mem : w ∈ i.accessed) :
    ∃ b ∈ block, w ∈ b.accessed := by
  cases lowered with
  | basic => exact ⟨i, List.mem_singleton_self i, mem⟩
  | clearing op =>
    rw [Instruction.accessed, op] at mem
    obtain rfl : w = i.subject := by simpa [Instruction.vars, op, Operation.operands] using mem
    exact ⟨_, List.mem_cons_self .., List.mem_cons_self ..⟩
  | synthetic drafted =>
    obtain ⟨b, own, uses⟩ := drafted.exists_accessed gives mem
    obtain ⟨first, rest, rfl, unlabelled⟩ := drafted.exists_cons
    rw [withEntry_cons _ rest unlabelled]
    obtain rfl | later := List.mem_cons.1 own
    · exact ⟨_, List.mem_cons_self .., uses⟩
    · exact ⟨b, List.mem_cons_of_mem _ later, uses⟩

/-- The slots of a call and the body of its callee are written in drawn names. -/
theorem within_callingBlock {c : Call} {callee : Program} (assembled : callee.Assembled)
    (le : c.namesNeeded callee ≤ Serial.last) (v : Variable) :
    ∀ b ∈ callingBlock v c (Inlined.frame c callee names), b.Within
      (v :: c.vars ++ Drafting.worksAfter names.highestWork (c.namesNeeded callee)) := by
  set known := v :: c.vars ++ Drafting.worksAfter names.highestWork (c.namesNeeded callee)
  have drawn {w : Variable} (own : w ∈ c.owned callee) :
      (Inlined.map c callee names).var w ∈ known :=
    List.mem_append_right _ (Frame.var_mem_worksAfter .redirect names assembled le own)
  have alone {z : Variable} (mem : z ∈ known) : (zero z).Within known :=
    .of_subset (List.cons_subset.2 ⟨mem, List.nil_subset _⟩)
  have result : (Inlined.frame c callee names).result ∈ known := drawn (List.mem_cons_self ..)
  have input {z : Variable} (mem : z ∈ (Inlined.frame c callee names).inputs) : z ∈ known := by
    obtain ⟨w, own, rfl⟩ := List.mem_map.1 mem
    exact drawn (List.mem_cons_of_mem _ (List.mem_append_left _ own))
  have work {z : Variable} (mem : z ∈ (Inlined.frame c callee names).works) : z ∈ known := by
    obtain ⟨w, own, rfl⟩ := List.mem_map.1 mem
    exact drawn (List.mem_cons_of_mem _ (List.mem_append_right _ own))
  refine forall_mem_callingBlock.2 ⟨?_, forall_mem_bindInputs ?_ ?_, ?_, ?_, ?_⟩
  · exact alone result
  · exact fun slot mem => alone (input mem)
  · intro slot mem a given
    refine .of_subset ?_
    rw [vars_bindInput]
    refine List.cons_subset.2 ⟨input mem, fun w occurs => List.mem_append_left _ ?_⟩
    exact List.mem_cons_of_mem _ (Argument.mem_variablesOf_iff.2 ⟨a, given, occurs⟩)
  · exact fun z mem => alone (work mem)
  · intro b mem w occurs
    obtain ⟨i, own, rfl⟩ := List.mem_map.1 mem
    change w ∈ (i.rename (Inlined.map c callee names).var _).vars at occurs
    rw [Instruction.vars_rename] at occurs
    obtain ⟨u, mentioned, rfl⟩ := List.mem_map.1 occurs
    exact .inr (drawn (Call.vars_subset_owned assembled u
      (assembled.mem_vars_iff.2 (.inr ⟨i, own, mentioned⟩))))
  · exact .of_subset (List.cons_subset.2 ⟨List.mem_append_left _ (List.mem_cons_self ..),
      List.cons_subset.2 ⟨result, List.nil_subset _⟩⟩)

/-- A block mentions what its instruction reads or writes and what is drawn for it. -/
theorem Drafted.within (assembled : ∀ f ∈ functions.items, f.Assembled)
    (drafted : Drafted functions names i.subject i.op block n) (gives : names.Gives after n) :
    ∀ b ∈ block, b.Within (i.accessed ++ Drafting.worksAfter names.highestWork n) := by
  obtain ⟨v, op, label, id, origin?, number⟩ := i
  change Drafted functions names v op block n at drafted
  cases drafted with
  | @countingUp k =>
    refine List.forall_mem_cons.2 ⟨?_, fun b mem => List.eq_of_mem_replicate mem ▸ ?_⟩ <;>
      simp [Instruction.Within, Instruction.vars, Instruction.accessed, Operation.operands, zero,
        increase]
  | @testingConstant k l d =>
    refine List.forall_mem_cons.2 ⟨?_, List.forall_mem_append.2
      ⟨forall_mem_countingDown (P := fun b => b.Within _) ?_ ?_ _, ?_⟩⟩ <;>
      simp [Instruction.Within, Instruction.vars, Instruction.accessed, Operation.operands,
        labelled, neutral, goto, decrease, assign, jumpZero, jumpNotZero, Drafting.worksAfter_one]
  | @testingVariable w l l₁ l₂ l₃ =>
    have both : Drafting.worksAfter names.highestWork 2 =
        [.workAt (names.highestWork + 1), .workAt (names.highestWork + 2)] := rfl
    simp [Instruction.Within, Instruction.vars, Instruction.accessed, Operation.operands,
      testingVariableBlock, labelled, neutral, decrease, assign, goto, jumpZero, both]
  | @calling c callee found labels =>
    have last := gives.le_last_of_call
    exact within_callingBlock (assembled callee (Functions.mem_items_of_find? found)) (by omega) v
  | @testingCall c l =>
    refine List.forall_mem_cons.2 ⟨Instruction.Within.of_subset ?_, ?_⟩
    · exact List.cons_subset.2 ⟨List.mem_append_right _ (List.mem_singleton_self _),
        List.subset_append_of_subset_left _ (List.subset_cons_self ..)⟩
    · simp [Instruction.Within, Instruction.vars, Instruction.accessed, Operation.operands,
        Drafting.worksAfter_one]
  | _ =>
    simp [Instruction.Within, Instruction.vars, Instruction.accessed, Operation.operands,
      jumpingBlock, copyingBlock, testingZeroBlock, labelled, neutral, increase, decrease, zero,
      goto, jumpNotZero, Drafting.worksAfter_one]

theorem Lowered.within (assembled : ∀ f ∈ functions.items, f.Assembled)
    (lowered : Lowered functions names i block n) (gives : names.Gives after n) :
    ∀ b ∈ block, b.Within (i.accessed ++ Drafting.worksAfter names.highestWork n) := by
  cases lowered with
  | basic basic =>
    refine List.forall_mem_singleton.2 (Instruction.Within.of_subset ?_)
    rw [Instruction.accessed_of_isBasic basic]
    exact List.subset_append_left ..
  | clearing op =>
    simp [Instruction.Within, Instruction.vars, Instruction.accessed, Operation.operands, op,
      clearingBlock, labelled, decrease, jumpNotZero]
  | synthetic drafted =>
    have within := drafted.within assembled gives
    obtain ⟨first, rest, rfl, unlabelled⟩ := drafted.exists_cons
    rw [withEntry_cons _ rest unlabelled]
    obtain ⟨own, others⟩ := List.forall_mem_cons.1 within
    exact List.forall_mem_cons.2 ⟨own, others⟩

end Accessed

end Lowering

namespace Machine

end Machine

namespace Expansion

namespace Lays

variable {functions : Functions} {p q : Program} {a : Layout} (lays : Lays functions p q a)
  {v : Variable}

include lays

theorem accesses (own : p.Accesses v) : q.Accesses v := by
  obtain ⟨i, mem, own⟩ := own
  obtain ⟨k, at_k⟩ := List.mem_iff_getElem?.1 mem
  rw [Array.getElem?_toList] at at_k
  obtain ⟨n, lowered, gives⟩ := lays.lowered at_k
  obtain ⟨b, inside, used⟩ := lowered.exists_accessed gives own
  obtain ⟨b', occurs, same⟩ := lays.exists_of_block at_k inside
  obtain ⟨subject, op, -⟩ := Frame.detached_eq same
  exact ⟨b', occurs, (Instruction.accessed_of_op_eq subject op).symm ▸ used⟩

/-- An old variable is mentioned in the next generation only if it is accessed in this one. -/
theorem accesses_of_mem_vars (knows : p.names.Knows v) (mem : v ∈ q.vars) :
    v = .result ∨ p.Accesses v := by
  obtain rfl | ⟨b, occurs, mentioned⟩ := lays.target.mem_vars_iff.1 mem
  · exact .inl rfl
  obtain ⟨k, i, at_k, b', inside, same⟩ := lays.exists_block occurs
  obtain ⟨n, lowered, gives, drawn⟩ := lays.gives at_k
  obtain ⟨subject, op, -⟩ := Frame.detached_eq same
  rw [Instruction.vars, subject, op] at mentioned
  obtain rfl | known := lowered.within lays.callees gives b' inside v mentioned
  · exact .inl rfl
  obtain used | fresh := List.mem_append.1 known
  · exact .inr ⟨i, List.mem_of_getElem? (Array.getElem?_toList.trans at_k), used⟩
  · exact absurd (drawn ▸ fresh) (lays.not_mem_drawn at_k knows)

end Lays

namespace Complete

variable {functions : Functions} {e : Expansion} (complete : e.Complete functions) {v : Variable}

include complete

theorem accesses {d : Nat} {q : Program} (at_d : e.generation? d = some q)
    (own : e.loaded.Accesses v) : q.Accesses v := by
  induction d generalizing q with
  | zero =>
    cases at_d
    exact own
  | succ d ih =>
    obtain ⟨p, a, before, lays⟩ := complete.exists_lays at_d
    exact lays.accesses (ih before)

/-- Names only grow, so what the program knows can be followed back through the degrees. -/
theorem accesses_of_mem_vars {d : Nat} {q : Program} (at_d : e.generation? (d + 1) = some q)
    (knows : e.loaded.names.Knows v) (mem : v ∈ q.vars) : v = .result ∨ e.loaded.Accesses v := by
  induction d generalizing q with
  | zero =>
    obtain ⟨p, a, before, lays⟩ := complete.exists_lays at_d
    cases before
    exact lays.accesses_of_mem_vars knows mem
  | succ d ih =>
    obtain ⟨p, a, before, lays⟩ := complete.exists_lays at_d
    have preserves : Preserves ⟨functions, .interpret, 0, 0⟩ e.loaded p :=
      Complete.preserves rfl complete before
    obtain rfl | own := lays.accesses_of_mem_vars (knows.mono preserves.names) mem
    · exact .inl rfl
    · exact ih before (own.mem_vars lays.source)

/-- The program lists everything that it mentions, and later degrees what it accesses. -/
theorem mem_vars_iff {d : Nat} {q : Program} (at_d : e.generation? d = some q)
    (mem : v ∈ e.loaded.vars) : v ∈ q.vars ↔ d = 0 ∨ v = .result ∨ e.loaded.Accesses v := by
  constructor
  · intro listed
    cases d with
    | zero => exact .inl rfl
    | succ d =>
      have knows := complete.assembled.knows_of_mem_vars mem
      exact .inr (complete.accesses_of_mem_vars at_d knows listed)
  · rintro (rfl | rfl | own)
    · cases at_d
      exact mem
    · exact List.mem_cons_self ..
    · exact (complete.accesses at_d own).mem_vars (complete.sound at_d).1

end Complete

/-- Leaves at once, by a jump that is written about the input. -/
def leaving : Definition where
  name := "P"
  records := [
    { name := "GOTO_LABEL", subject := "x1", arguments := [("gotoLabel", "EXIT")] }]

def jumpingOut : Program where
  header := ⟨"P", "P", .main⟩
  degree := 0
  instructions := #[{ subject := firstInput, op := .gotoLabel .exit, number := 1 }]
  positions := ∅
  inputs := .ofList [firstInput]
  works := ∅
  names := {}

theorem ofDefinition_leaving : Program.ofDefinition leaving .main = .ok jumpingOut := rfl

end Expansion

end SLanguage
