import SLanguage.Proofs.Lowering.Calling

/-! What lowering keeps. Wherever the block of an instruction stands, it does what the
instruction does, but for the work variables that it has drawn, and it goes on where a jump
from its end would lead. It begins with the label of the instruction. -/

namespace SLanguage

/-- The supply is past the variable. -/
def Names.Knows (names : Names) (v : Variable) : Prop :=
  ∀ n, v = .work n → n.val ≤ names.highestWork

theorem Names.Gives.not_mem {names after : Names} {n : Nat} (gives : names.Gives after n)
    {v : Variable} (knows : names.Knows v) : v ∉ Drafting.worksAfter names.highestWork n := by
  intro mem
  obtain ⟨n, eq, gt, -⟩ := gives.mem_worksAfter_iff.1 mem
  exact Nat.not_lt.2 (knows n eq) gt

theorem Program.Holds.of_labelled {p : Program} {start : Nat} {l : Label} {i : Instruction}
    {block : List Instruction} (unlabelled : i.label = .empty)
    (holds : p.Holds start (Lowering.labelled l i :: block)) : p.Holds start (i :: block) := by
  intro j k at_j
  cases j with
  | zero =>
    cases at_j
    obtain ⟨q, at_start, subject, op, -⟩ := holds 0 _ rfl
    exact ⟨q, at_start, subject, op, fun ne => absurd unlabelled ne⟩
  | succ j => exact holds (j + 1) k at_j

theorem Program.Offers.of_labelled {p : Program} {region : Nat → Prop} {start : Nat} {l : Label}
    {i : Instruction} {block : List Instruction} (unlabelled : i.label = .empty)
    (offers : p.Offers region start (Lowering.labelled l i :: block)) :
    p.Offers region start (i :: block) :=
  ⟨offers.holds.of_labelled unlabelled, offers.within⟩

namespace Lowering

theorem withEntry_cons (l : Label) {i : Instruction} (rest : List Instruction)
    (unlabelled : i.label = .empty) : withEntry l (i :: rest) = labelled l i :: rest := by
  have empty : i.label.isEmpty = true := Program.isEmpty_iff.2 unlabelled
  unfold withEntry
  cases l with
  | empty =>
    have own : labelled .empty i = i := by rw [labelled, ← unlabelled]
    rw [own]
    rfl
  | _ =>
    simp only [empty]
    rfl

/-- What holds of the instructions that count a variable down holds of all of them. -/
theorem forall_mem_countingDown {P : Instruction → Prop} {z : Variable} {done : Label}
    (test : P (jumpZero z done)) (count : P (decrease z)) (k : Nat) :
    ∀ b ∈ countingDown z done k, P b := by
  intro b mem
  obtain ⟨pair, own, mem⟩ := List.mem_flatten.1 mem
  rw [List.eq_of_mem_replicate own] at mem
  obtain rfl | mem := List.mem_cons.1 mem
  · exact test
  · exact List.mem_singleton.1 mem ▸ count

theorem forall_mem_bindInputs {P : Instruction → Prop} {slots : List Variable}
    {as : List Argument} (unbound : ∀ slot ∈ slots, P (bindInput slot none))
    (bound : ∀ slot ∈ slots, ∀ a ∈ as, P (bindInput slot (some a))) :
    ∀ b ∈ bindInputs slots as, P b := by
  induction slots generalizing as with
  | nil => exact List.forall_mem_nil _
  | cons slot slots ih =>
    obtain ⟨own, others⟩ := List.forall_mem_cons.1 unbound
    obtain ⟨own', others'⟩ := List.forall_mem_cons.1 bound
    cases as with
    | nil => exact List.forall_mem_cons.2 ⟨own, ih others fun _ _ => List.forall_mem_nil _⟩
    | cons a as =>
      refine List.forall_mem_cons.2 ⟨own' a (List.mem_cons_self ..), ih others ?_⟩
      exact fun slot mem b mem' => others' slot mem b (List.mem_cons_of_mem _ mem')

section Shape

variable {functions : Functions} {names : Names} {i : Instruction} {v : Variable} {op : Operation}
  {block : List Instruction} {n : Nat}

/-- A block that is written about a variable leaves its first instruction free. -/
theorem Drafted.exists_cons (drafted : Drafted functions names v op block n) :
    ∃ first rest, block = first :: rest ∧ first.label = .empty := by
  cases drafted <;> exact ⟨_, _, rfl, rfl⟩

theorem Lowered.exists_cons (lowered : Lowered functions names i block n) :
    ∃ first rest, block = first :: rest ∧ (i.label ≠ .empty → first.label = i.label) := by
  cases lowered with
  | basic => exact ⟨i, [], rfl, fun _ => rfl⟩
  | clearing op k own => exact ⟨_, _, rfl, fun ne => (own ne).symm⟩
  | synthetic drafted =>
    obtain ⟨first, rest, rfl, unlabelled⟩ := drafted.exists_cons
    exact ⟨_, rest, withEntry_cons _ rest unlabelled, fun _ => rfl⟩

theorem labels_countingDown (z : Variable) (l : Label) (k : Nat) :
    ∀ i ∈ countingDown z l k, i.label = .empty :=
  forall_mem_countingDown (P := fun i => i.label = .empty) rfl rfl k

theorem labels_bindInputs (slots : List Variable) (as : List Argument) :
    ∀ i ∈ bindInputs slots as, i.label = .empty :=
  forall_mem_bindInputs (P := fun i => i.label = .empty) (fun _ _ => rfl) fun _ _ a _ => by
    cases a <;> rfl

/-- No label of a spliced body is `EXIT`, since that is what is redirected. -/
theorem label_ne_exit_of_body {c : Call} {callee : Program} (assembled : callee.Assembled)
    (labels : (Frame.moved callee .redirect).length = 0 ∨
      names.highestLabel + (Frame.moved callee .redirect).length ≤ Serial.last) :
    ∀ b ∈ (Inlined.frame c callee names).body, b.label ≠ .exit := by
  intro b mem
  obtain ⟨i, occurs, rfl⟩ := List.mem_map.1 mem
  rw [Frame.label_detached]
  split
  · exact Label.noConfusion
  · rename_i labelled
    have ne : i.label ≠ .empty := fun eq => labelled (Program.isEmpty_iff.2 eq)
    have own := Frame.mem_labels_iff.2 (.inl (assembled.exists_position?_label occurs ne))
    obtain ⟨k, renamed⟩ := Inlined.label_of_nonempty (c := c) labels own ne
    rw [renamed]
    exact Label.noConfusion

theorem label_ne_exit_of_copyOut {c : Call} {callee : Program}
    (labels : (Frame.moved callee .redirect).length = 0 ∨
      names.highestLabel + (Frame.moved callee .redirect).length ≤ Serial.last) :
    (Inlined.copyOut v (Inlined.frame c callee names)).label ≠ .exit := by
  change ((Inlined.map c callee names).labels.lookup .exit).getD .empty ≠ .exit
  cases found : (Inlined.map c callee names).labels.lookup .exit with
  | none => exact Label.noConfusion
  | some l =>
    have moved : .exit ∈ Frame.moved callee .redirect := by
      by_contra kept
      rw [Inlined.map, Frame.mapping, Renaming.lookup_zip_of_not_mem kept] at found
      cases found
    obtain ⟨k, renamed⟩ := Inlined.label_of_nonempty (c := c) labels
      (List.mem_filter.1 moved).1 Label.noConfusion
    rw [Renaming.label, found] at renamed
    have numbered : l = .numbered k := renamed
    rw [numbered]
    exact Label.noConfusion

theorem Drafted.label_ne_exit (assembled : ∀ f ∈ functions.items, f.Assembled)
    (drafted : Drafted functions names v op block n) : ∀ b ∈ block, b.label ≠ .exit := by
  cases drafted with
  | countingUp =>
    refine List.forall_mem_cons.2 ⟨Label.noConfusion, fun b mem => ?_⟩
    rw [List.eq_of_mem_replicate mem]
    exact Label.noConfusion
  | testingConstant k =>
    refine List.forall_mem_cons.2 ⟨Label.noConfusion, List.forall_mem_append.2 ⟨?_, ?_⟩⟩
    · exact fun b mem => labels_countingDown _ _ _ b mem ▸ Label.noConfusion
    · simp [labelled, neutral, goto, jumpNotZero]
  | @calling c callee found labels =>
    have callee_assembled := assembled callee (Functions.mem_items_of_find? found)
    rw [Inlined.callingBlock_eq]
    refine List.forall_mem_cons.2 ⟨Label.noConfusion, List.forall_mem_append.2 ⟨?_, ?_⟩⟩
    · exact fun b mem => labels_bindInputs _ _ b mem ▸ Label.noConfusion
    · refine List.forall_mem_append.2 ⟨?_, List.forall_mem_append.2 ⟨?_, ?_⟩⟩
      · exact fun b mem => labels_bindInputs _ _ b mem ▸ Label.noConfusion
      · exact label_ne_exit_of_body callee_assembled labels
      · exact List.forall_mem_singleton.2 (label_ne_exit_of_copyOut labels)
  | _ =>
    simp [jumpingBlock, copyingBlock, testingZeroBlock, testingVariableBlock, testingCallBlock,
      labelled, neutral, increase, decrease, zero, assign, goto, jumpZero, jumpNotZero]

theorem Lowered.label_ne_exit (assembled : ∀ f ∈ functions.items, f.Assembled)
    (inside : i.label ≠ .exit) (lowered : Lowered functions names i block n) :
    ∀ b ∈ block, b.label ≠ .exit := by
  cases lowered with
  | basic => exact List.forall_mem_singleton.2 inside
  | clearing op k own => simp [clearingBlock, labelled, decrease, jumpNotZero]
  | synthetic drafted =>
    have others := drafted.label_ne_exit assembled
    obtain ⟨first, rest, rfl, unlabelled⟩ := drafted.exists_cons
    rw [withEntry_cons _ rest unlabelled]
    exact List.forall_mem_cons.2 ⟨inside, (List.forall_mem_cons.1 others).2⟩

end Shape

/-- The variables that a block leaves as it likes. An assignment leaves none, since the
variable that it has drawn must be zero when it is passed again. -/
def scratch (op : Operation) (names : Names) (n : Nat) : List Variable :=
  match op with
  | .assignment _ => []
  | _ => Drafting.worksAfter names.highestWork n

theorem scratch_subset (op : Operation) (names : Names) (n : Nat) :
    scratch op names n ⊆ Drafting.worksAfter names.highestWork n := by
  cases op with
  | assignment w => exact List.nil_subset _
  | _ => exact List.Subset.refl _

/-- A call that is lowered has got all names that it needs. -/
theorem inlined_of_gives {functions : Functions}
    (assembled : ∀ f ∈ functions.items, f.Assembled) {names after : Names} {p : Program}
    (program : p.Assembled) {start : Nat} {v : Variable} {c : Call} {callee : Program}
    (found : functions.find? c.function = some callee)
    (labels : (Frame.moved callee .redirect).length = 0 ∨
      names.highestLabel + (Frame.moved callee .redirect).length ≤ Serial.last)
    (gives : names.Gives after (c.namesNeeded callee))
    (holds : p.Holds start (callingBlock v c (Inlined.frame c callee names))) :
    Inlined p start v c callee names where
  program := program
  assembled := assembled callee (Functions.mem_items_of_find? found)
  works := gives.le_last_of_call
  labels := labels
  holds := holds

section Plain

variable {functions : Functions} {answering : Answering} {names after : Names} {i : Instruction}
  {block : List Instruction} {n : Nat} {p : Program} {region : Nat → Prop} {start : Nat}
  {s : Store} {e : Effect} {next? : Option Nat}
  (ends : p.follow (start + (block.length - 1)) e.jump = .ok next?)

include ends

/-- An instruction without a call is done by its block alone, in whatever region that is. -/
theorem Drafted.does_of_no_call (drafted : Drafted functions names i.subject i.op block n)
    (calls : i.op.call? = none) (program : p.Assembled) (offers : p.Offers region start block)
    (gives : names.Gives after n) (knows : ∀ v ∈ i.vars, names.Knows v)
    (bounded : ∀ v ∈ i.vars, s.get v ≤ Store.largest)
    (clear : ∀ w, i.op = .assignment w →
      ∀ z ∈ Drafting.worksAfter names.highestWork n, s.get z = 0)
    (ran : i.effect answering s = pure e) :
    Does answering p region start s next? (scratch i.op names n) e.store := by
  rw [Instruction.effect_of_no_call calls] at ran
  obtain rfl := Attempt.pure_injective ran
  obtain ⟨v, op, label, id, origin?, number⟩ := i
  have apart {w z : Variable} (mem : z ∈ Drafting.worksAfter names.highestWork n)
      (known : names.Knows w) : z ≠ w := fun eq => gives.not_mem known (eq ▸ mem)
  have own : names.Knows v := knows v (List.mem_cons_self ..)
  change Drafted functions names v op block n at drafted
  cases drafted with
  | jumping => exact does_jumping offers ends s
  | keeping =>
    obtain ⟨m, s', pos, passed, values⟩ :=
      does_instruction offers (effect_neutral answering v (s := s)) ends
    refine ⟨m, s', pos, passed, fun w clean => (values w clean).trans ?_⟩
    change s.get w = (s.set v (s.get v)).get w
    rw [Store.get_set]
    split
    · rename_i eq
      rw [eq]
    · rfl
  | @copying w ne l₁ l₂ l₃ =>
    have drawn := List.mem_singleton_self (Variable.workAt (names.highestWork + 1))
    have other : names.Knows w := knows w (List.mem_cons_of_mem _ (List.mem_singleton_self w))
    exact does_copying program offers ends (apart drawn own) (apart drawn other) ne
      (clear w rfl _ drawn) (bounded w (List.mem_cons_of_mem _ (List.mem_singleton_self w)))
  | @countingUp k =>
    have length : (Lowering.countingUp v k).length - 1 = k.toNat := by simp [Lowering.countingUp]
    rw [length] at ends
    exact does_countingUp offers ends s
  | testingZero k =>
    exact does_testingZero program offers s
      (by simpa [testingZeroBlock, Instruction.reaction] using ends)
  | @testingConstant k l d =>
    refine does_testingConstant program offers s ?_
    have length : (testingConstantBlock v k.toNat (.numbered d) l
        (.workAt (names.highestWork + 1))).length - 1 = 2 * k.toNat + 3 := by
      simp [testingConstantBlock, length_countingDown]
    rw [length] at ends
    simpa [Instruction.reaction] using ends
  | @testingVariable w l l₁ l₂ l₃ =>
    have last := gives.last.resolve_left (by decide)
    have other : names.Knows w := knows w (List.mem_cons_of_mem _ (List.mem_singleton_self w))
    refine does_testingVariable program offers ?_ (apart (List.mem_cons_self ..) other) s
      (by simpa [testingVariableBlock, Instruction.reaction] using ends)
    intro eq
    have same := Variable.workAt_injOn (by omega) (by omega) (by omega) (by omega) eq
    omega
  | calling => cases calls
  | testingCall => cases calls

/-- A block does what the instruction does if the part that its rule has written does. -/
theorem Lowered.does_of_drafted (lowered : Lowered functions names i block n)
    (program : p.Assembled) (offers : p.Offers region start block)
    (ran : i.effect answering s = pure e)
    (written : ∀ inner, Drafted functions names i.subject i.op inner n →
      p.Offers region start inner → p.follow (start + (inner.length - 1)) e.jump = .ok next? →
      Does answering p region start s next? (scratch i.op names n) e.store) :
    Does answering p region start s next? (scratch i.op names n) e.store := by
  cases lowered with
  | basic => exact (does_instruction offers ran ends).mono (List.nil_subset _)
  | clearing op k own =>
    rw [Instruction.effect, op] at ran
    obtain rfl := Attempt.pure_injective ran
    exact (does_clearing program offers ends s).mono (List.nil_subset _)
  | synthetic drafted =>
    obtain ⟨first, rest, rfl, unlabelled⟩ := drafted.exists_cons
    rw [withEntry_cons _ rest unlabelled] at offers ends
    exact written _ drafted (offers.of_labelled unlabelled) ends

end Plain

section Contract

variable {ev : Evaluator} {room : Nat} {names after : Names} {i : Instruction}
  {block : List Instruction} {n : Nat} {p : Program} {start : Nat} {s : Store}
  (interpret : ev.strategy = .interpret) (assembled : ∀ f ∈ ev.functions.items, f.Assembled)
  (program : p.Assembled) (holds : p.Holds start block) (gives : names.Gives after n)
  (knows : ∀ v ∈ i.vars, names.Knows v)

include interpret assembled program holds gives knows

theorem Drafted.does (drafted : Drafted ev.functions names i.subject i.op block n)
    (bounded : ∀ v ∈ i.vars, s.get v ≤ Store.largest)
    (clear : ∀ w, i.op = .assignment w →
      ∀ z ∈ Drafting.worksAfter names.highestWork n, s.get z = 0)
    {e : Effect} (ran : i.effect (ev.answer room) s = pure e) {next? : Option Nat}
    (ends : p.follow (start + (block.length - 1)) e.jump = .ok next?) :
    Does (ev.answer room) p anywhere start s next? (scratch i.op names n) e.store := by
  cases calls : i.op.call? with
  | none =>
    exact drafted.does_of_no_call ends calls program holds.anywhere gives knows bounded clear ran
  | some c =>
    rw [Instruction.effect_of_call calls] at ran
    obtain ⟨y, answered, ran⟩ := Attempt.run_bind_eq_ok.1 (congrArg ExceptT.run ran)
    obtain rfl := Attempt.pure_injective ran
    obtain ⟨v, op, label, id, origin?, number⟩ := i
    change Drafted ev.functions names v op block n at drafted
    cases drafted with
    | @calling c callee found labels =>
      cases calls
      cases room with
      | zero => exact absurd answered.symm (Attempt.pure_ne_stop y (some _))
      | succ room =>
        have inlined := inlined_of_gives assembled program found labels gives holds
        rw [inlined.length_block, Nat.add_sub_cancel, ← Nat.add_assoc] at ends
        exact inlined.does interpret assembled room
          (fun w mem => gives.not_mem (knows w (List.mem_cons_of_mem _ mem))) found answered ends
    | @testingCall c l =>
      cases calls
      have own : Variable.workAt (names.highestWork + 1) ≠ v := fun eq =>
        gives.not_mem (knows v (List.mem_cons_self ..)) (eq ▸ List.mem_cons_self ..)
      exact does_testingCall holds.anywhere own answered
        (by simpa [testingCallBlock, Instruction.reaction] using ends)
    | _ => cases calls

theorem Drafted.stalls (drafted : Drafted ev.functions names i.subject i.op block n)
    (unfinished : i.effect (ev.answer room) s = .unfinished) :
    Stalls (ev.answer room) p ev.stepLimit (some start) s := by
  obtain ⟨v, op, label, id, origin?, number⟩ := i
  change Drafted ev.functions names v op block n at drafted
  cases drafted with
  | @calling c callee found labels =>
    rw [Instruction.effect_of_call (c := c) rfl] at unfinished
    cases room with
    | zero => cases unfinished
    | succ room =>
      have inlined := inlined_of_gives assembled program found labels gives holds
      exact inlined.stalls interpret assembled room
        (fun w mem => gives.not_mem (knows w (List.mem_cons_of_mem _ mem))) found
        (Attempt.eq_stop_of_bind_pure none unfinished)
  | @testingCall c l =>
    rw [Instruction.effect_of_call (c := c) rfl] at unfinished
    exact stalls_testingCall holds (Attempt.eq_stop_of_bind_pure none unfinished)
  | _ => exact absurd unfinished (Attempt.pure_ne_stop _ none)

theorem Lowered.does (lowered : Lowered ev.functions names i block n)
    (bounded : ∀ v ∈ i.vars, s.get v ≤ Store.largest)
    (clear : ∀ w, i.op = .assignment w →
      ∀ z ∈ Drafting.worksAfter names.highestWork n, s.get z = 0)
    {e : Effect} (ran : i.effect (ev.answer room) s = pure e) {next? : Option Nat}
    (ends : p.follow (start + (block.length - 1)) e.jump = .ok next?) :
    Does (ev.answer room) p anywhere start s next? (scratch i.op names n) e.store :=
  lowered.does_of_drafted ends program holds.anywhere ran fun _ drafted offers ends =>
    drafted.does interpret assembled program offers.holds gives knows bounded clear ran ends

theorem Lowered.stalls (lowered : Lowered ev.functions names i block n)
    (unfinished : i.effect (ev.answer room) s = .unfinished) :
    Stalls (ev.answer room) p ev.stepLimit (some start) s := by
  cases lowered with
  | basic =>
    obtain ⟨q, at_start, subject, op, -⟩ := holds 0 i rfl
    refine .of_instruction at_start ?_
    rw [← unfinished, Instruction.effect, Instruction.effect, subject, op]
  | clearing op k own =>
    rw [Instruction.effect, op] at unfinished
    exact absurd unfinished (Attempt.pure_ne_stop _ none)
  | synthetic drafted =>
    obtain ⟨first, rest, rfl, unlabelled⟩ := drafted.exists_cons
    rw [withEntry_cons _ rest unlabelled] at holds
    exact drafted.stalls interpret assembled program (holds.of_labelled unlabelled) gives knows
      unfinished

end Contract

end Lowering

end SLanguage
