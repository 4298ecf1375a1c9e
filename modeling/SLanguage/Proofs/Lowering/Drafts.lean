import SLanguage.Proofs.Lowering.Blocks
import SLanguage.Proofs.Lowering.Splicing

/-! What a rule drafts. Every rule that succeeds gives one of these blocks, over the labels
and work variables that it has drawn. How the labels are numbered does not matter, since
they are found apart again when the blocks are assembled. -/

namespace SLanguage

/-- So many work variables have been drawn between two supplies. -/
structure Names.Gives (names after : Names) (n : Nat) : Prop where
  highest : after.highestWork = names.highestWork + n
  last : n = 0 ∨ names.highestWork + n ≤ Serial.last

/-- The variable is one that has been drawn between two supplies. -/
def Names.Drew (names after : Names) (v : Variable) : Prop :=
  ∃ n, v = .work n ∧ names.highestWork < n.val ∧ n.val ≤ after.highestWork

theorem Names.Gives.mem_worksAfter_iff {names after : Names} {n : Nat}
    (gives : names.Gives after n) {v : Variable} :
    v ∈ Drafting.worksAfter names.highestWork n ↔ names.Drew after v := by
  rw [Names.Drew, gives.highest]
  exact Drafting.mem_worksAfter_iff gives.last

/-- A call draws at least the slot of its result. -/
theorem Names.Gives.le_last_of_call {names after : Names} {c : Call} {callee : Program}
    (gives : names.Gives after (c.namesNeeded callee)) :
    names.highestWork + c.namesNeeded callee ≤ Serial.last :=
  gives.last.resolve_left (by unfold Call.namesNeeded; omega)

namespace Drafting

variable {names after : Names}

theorem exists_of_label {l : Label} (h : label.drawn names = (.ok l, after)) :
    (∃ n, l = .numbered n) ∧ after.highestWork = names.highestWork := by
  obtain ⟨lt, rfl, rfl⟩ := label_eq_ok h
  obtain ⟨n, -, eq⟩ := Label.numberedAt_eq (Nat.succ_pos names.highestLabel) lt
  exact ⟨⟨n, eq⟩, rfl⟩

theorem of_work {v : Variable} (h : work.drawn names = (.ok v, after)) :
    v = .workAt (names.highestWork + 1) ∧ names.Gives after 1 := by
  obtain ⟨lt, rfl, rfl⟩ := work_eq_ok h
  exact ⟨rfl, rfl, .inr lt⟩

end Drafting

namespace Lowering

def callingBlock (v : Variable) (c : Call) (frame : Frame) : List Instruction :=
  zero frame.result :: bindInputs frame.inputs c.arguments ++ frame.works.map zero ++ frame.body ++
    [labelled (frame.endLabel?.getD .empty) (assign v frame.result)]

/-- The blocks that are written about a variable, with how many work variables each draws. -/
inductive Drafted (functions : Functions) (names : Names) (v : Variable) :
    Operation → List Instruction → Nat → Prop where
  | jumping {l : Label} : Drafted functions names v (.gotoLabel l)
      (jumpingBlock (.workAt (names.highestWork + 1)) l) 1
  | keeping : Drafted functions names v (.assignment v) [neutral v] 0
  | copying {w : Variable} (ne : v ≠ w) (l₁ l₂ l₃ : Serial) :
      Drafted functions names v (.assignment w)
        (copyingBlock v w (.numbered l₁) (.numbered l₂) (.numbered l₃)
          (.workAt (names.highestWork + 1))) 1
  | countingUp {k : UInt64} :
      Drafted functions names v (.constantAssignment k) (countingUp v k) 0
  | testingZero {l : Label} (n : Serial) :
      Drafted functions names v (.jumpZero l) (testingZeroBlock v (.numbered n) l) 0
  | testingConstant {k : UInt64} {l : Label} (n : Serial) :
      Drafted functions names v (.jumpEqualConstant k l)
        (testingConstantBlock v k.toNat (.numbered n) l (.workAt (names.highestWork + 1))) 1
  | testingVariable {w : Variable} {l : Label} (l₁ l₂ l₃ : Serial) :
      Drafted functions names v (.jumpEqualVariable w l)
        (testingVariableBlock v w (.numbered l₁) (.numbered l₂) (.numbered l₃) l
          (.workAt (names.highestWork + 1)) (.workAt (names.highestWork + 2))) 2
  | calling {c : Call} {callee : Program}
      (found : functions.find? c.function = some callee)
      (labels : (Frame.moved callee .redirect).length = 0 ∨
        names.highestLabel + (Frame.moved callee .redirect).length ≤ Serial.last) :
      Drafted functions names v (.quote c)
        (callingBlock v c (Frame.spliced c callee .redirect names)) (c.namesNeeded callee)
  | testingCall {c : Call} {l : Label} : Drafted functions names v (.jumpEqualFunction c l)
      (testingCallBlock v c l (.workAt (names.highestWork + 1))) 1

/-- The block of an instruction, with how many work variables it draws. -/
inductive Lowered (functions : Functions) (names : Names) (i : Instruction) :
    List Instruction → Nat → Prop where
  | basic (isBasic : i.isBasic = true) : Lowered functions names i [i] 0
  | clearing (op : i.op = .zeroVariable) (n : Serial)
      (own : i.label ≠ .empty → i.label = .numbered n) :
      Lowered functions names i (clearingBlock i.subject (.numbered n)) 0
  | synthetic {block : List Instruction} {n : Nat}
      (drafted : Drafted functions names i.subject i.op block n) :
      Lowered functions names i (withEntry i.label block) n

section Rules

variable {functions : Functions} {names after : Names} {v w : Variable} {block : List Instruction}

theorem clearing_eq_ok {own : Label} (ne : own ≠ .exit)
    (h : (clearing v own).drawn names = (.ok block, after)) :
    ∃ n : Serial, (own ≠ .empty → own = .numbered n) ∧ block = clearingBlock v (.numbered n) ∧
      names.Gives after 0 := by
  cases own with
  | empty =>
    obtain ⟨loop, mid, drawn, h⟩ := Drafting.drawn_bind_eq_ok.1 h
    cases h
    obtain ⟨⟨n, rfl⟩, same⟩ := Drafting.exists_of_label drawn
    exact ⟨n, fun labelled => absurd rfl labelled, rfl, same, .inl rfl⟩
  | numbered n =>
    cases h
    exact ⟨n, fun _ => rfl, rfl, rfl, .inl rfl⟩
  | exit => exact absurd rfl ne

theorem drafted_jumping {l : Label} (h : (jumping l).drawn names = (.ok block, after)) :
    Drafted functions names v (.gotoLabel l) block 1 ∧ names.Gives after 1 := by
  obtain ⟨z, mid, drawn, h⟩ := Drafting.drawn_bind_eq_ok.1 h
  cases h
  obtain ⟨rfl, gives⟩ := Drafting.of_work drawn
  exact ⟨.jumping, gives⟩

theorem drafted_copying (h : (copying v w).drawn names = (.ok block, after)) :
    ∃ n, Drafted functions names v (.assignment w) block n ∧ names.Gives after n := by
  unfold copying at h
  by_cases eq : v = w
  · subst eq
    rw [if_pos rfl] at h
    cases h
    exact ⟨0, .keeping, rfl, .inl rfl⟩
  · rw [if_neg eq] at h
    obtain ⟨l₁, names₁, first, h⟩ := Drafting.drawn_bind_eq_ok.1 h
    obtain ⟨l₂, names₂, second, h⟩ := Drafting.drawn_bind_eq_ok.1 h
    obtain ⟨l₃, names₃, third, h⟩ := Drafting.drawn_bind_eq_ok.1 h
    obtain ⟨z, names₄, fourth, h⟩ := Drafting.drawn_bind_eq_ok.1 h
    cases h
    obtain ⟨⟨n₁, rfl⟩, same₁⟩ := Drafting.exists_of_label first
    obtain ⟨⟨n₂, rfl⟩, same₂⟩ := Drafting.exists_of_label second
    obtain ⟨⟨n₃, rfl⟩, same₃⟩ := Drafting.exists_of_label third
    obtain ⟨rfl, highest, last⟩ := Drafting.of_work fourth
    rw [same₃, same₂, same₁] at highest last ⊢
    exact ⟨1, .copying eq n₁ n₂ n₃, highest, last⟩

theorem drafted_testingZero {l : Label} (h : (testingZero v l).drawn names = (.ok block, after)) :
    Drafted functions names v (.jumpZero l) block 0 ∧ names.Gives after 0 := by
  obtain ⟨done, mid, drawn, h⟩ := Drafting.drawn_bind_eq_ok.1 h
  cases h
  obtain ⟨⟨n, rfl⟩, same⟩ := Drafting.exists_of_label drawn
  exact ⟨.testingZero n, same, .inl rfl⟩

theorem drafted_testingConstant {k : UInt64} {l : Label}
    (h : (testingConstant v k l).drawn names = (.ok block, after)) :
    Drafted functions names v (.jumpEqualConstant k l) block 1 ∧ names.Gives after 1 := by
  obtain ⟨done, names₁, first, h⟩ := Drafting.drawn_bind_eq_ok.1 h
  obtain ⟨z, names₂, second, h⟩ := Drafting.drawn_bind_eq_ok.1 h
  cases h
  obtain ⟨⟨n, rfl⟩, same⟩ := Drafting.exists_of_label first
  obtain ⟨rfl, highest, last⟩ := Drafting.of_work second
  rw [same] at highest last ⊢
  exact ⟨.testingConstant n, highest, last⟩

theorem drafted_testingVariable {l : Label}
    (h : (testingVariable v w l).drawn names = (.ok block, after)) :
    Drafted functions names v (.jumpEqualVariable w l) block 2 ∧ names.Gives after 2 := by
  obtain ⟨l₁, names₁, first, h⟩ := Drafting.drawn_bind_eq_ok.1 h
  obtain ⟨l₂, names₂, second, h⟩ := Drafting.drawn_bind_eq_ok.1 h
  obtain ⟨l₃, names₃, third, h⟩ := Drafting.drawn_bind_eq_ok.1 h
  obtain ⟨a, names₄, fourth, h⟩ := Drafting.drawn_bind_eq_ok.1 h
  obtain ⟨b, names₅, fifth, h⟩ := Drafting.drawn_bind_eq_ok.1 h
  cases h
  obtain ⟨⟨n₁, rfl⟩, same₁⟩ := Drafting.exists_of_label first
  obtain ⟨⟨n₂, rfl⟩, same₂⟩ := Drafting.exists_of_label second
  obtain ⟨⟨n₃, rfl⟩, same₃⟩ := Drafting.exists_of_label third
  obtain ⟨rfl, highest, last⟩ := Drafting.of_work fourth
  obtain ⟨rfl, highest', last'⟩ := Drafting.of_work fifth
  rw [same₃, same₂, same₁] at highest ⊢
  rw [highest] at highest' last' ⊢
  exact ⟨.testingVariable n₁ n₂ n₃, highest', .inr (last'.resolve_left Nat.one_ne_zero)⟩

theorem drafted_calling (assembled : ∀ f ∈ functions.items, f.Assembled) {c : Call}
    (h : (calling functions v c).drawn names = (.ok block, after)) :
    ∃ n, Drafted functions names v (.quote c) block n ∧ names.Gives after n := by
  obtain ⟨frame, mid, spliced, h⟩ := Drafting.drawn_bind_eq_ok.1 h
  cases h
  obtain ⟨callee, found, last, labels, rfl, rfl⟩ := Frame.splice_eq_ok assembled spliced
  exact ⟨_, .calling found labels, rfl, .inr last⟩

theorem drafted_testingCall {c : Call} {l : Label}
    (h : (testingCall v c l).drawn names = (.ok block, after)) :
    Drafted functions names v (.jumpEqualFunction c l) block 1 ∧ names.Gives after 1 := by
  obtain ⟨z, mid, drawn, h⟩ := Drafting.drawn_bind_eq_ok.1 h
  cases h
  obtain ⟨rfl, gives⟩ := Drafting.of_work drawn
  exact ⟨.testingCall, gives⟩

end Rules

/-- Everything that lowering an instruction can come to. Only a call looks at the functions,
and only a loop that clears a variable jumps to the label of the instruction. -/
theorem lower_eq_ok {functions : Functions} {i : Instruction}
    (assembled : i.op.call? ≠ none → ∀ f ∈ functions.items, f.Assembled)
    (inside : i.op = .zeroVariable → i.label ≠ .exit) {names after : Names}
    {block : List Instruction} (h : (lower functions i).drawn names = (.ok block, after)) :
    ∃ n, Lowered functions names i block n ∧ names.Gives after n := by
  have entered {rule : Drafting (List Instruction)}
      (h : (do return withEntry i.label (← rule) : Drafting (List Instruction)).drawn names =
        (.ok block, after))
      (rules : ∀ inner, rule.drawn names = (.ok inner, after) →
        ∃ n, Drafted functions names i.subject i.op inner n ∧ names.Gives after n) :
      ∃ n, Lowered functions names i block n ∧ names.Gives after n := by
    obtain ⟨inner, mid, drawn, h⟩ := Drafting.drawn_bind_eq_ok.1 h
    cases h
    obtain ⟨n, drafted, gives⟩ := rules inner drawn
    exact ⟨n, .synthetic drafted, gives⟩
  unfold lower at h
  cases op : i.op <;> simp only [op] at h entered
  case zeroVariable =>
    obtain ⟨n, own, rfl, gives⟩ := clearing_eq_ok (inside op) h
    exact ⟨0, .clearing op n own, gives⟩
  case gotoLabel l => exact entered h fun _ drawn => ⟨1, drafted_jumping drawn⟩
  case assignment w => exact entered h fun _ drawn => drafted_copying drawn
  case constantAssignment k =>
    cases h
    refine ⟨0, .synthetic ?_, rfl, .inl rfl⟩
    rw [op]
    exact .countingUp
  case jumpZero l => exact entered h fun _ drawn => ⟨0, drafted_testingZero drawn⟩
  case jumpEqualConstant k l => exact entered h fun _ drawn => ⟨1, drafted_testingConstant drawn⟩
  case jumpEqualVariable w l => exact entered h fun _ drawn => ⟨2, drafted_testingVariable drawn⟩
  case quote c =>
    have calls : i.op.call? ≠ none := by simp [op, Operation.call?]
    exact entered h fun _ drawn => drafted_calling (assembled calls) drawn
  case jumpEqualFunction c l => exact entered h fun _ drawn => ⟨1, drafted_testingCall drawn⟩
  all_goals
    cases h
    exact ⟨0, .basic (by simp [Instruction.isBasic, Instruction.kind, op]; rfl), rfl, .inl rfl⟩

end Lowering

end SLanguage
