import SLanguage.Proofs.Calls.Entries
import SLanguage.Proofs.Supply
import SLanguage.Proofs.Text.Arguments

/-! Splices capture nothing. Whatever a callee uses or is handed gets a name of its own, which
the supply has not met before, and nothing in the body of the frame keeps the name that it had
in the callee, be it an input that is skipped, an argument of a nested call or a label that is
only jumped to. -/

namespace SLanguage

/-- The name is at or above the counters of the supply, and in no past that the supply can have. -/
def Names.New (names : Names) (name : Name) : Prop :=
  (∃ r n, name = Names.Request.name r n ∧ names.highest r + 1 ≤ n.val) ∧
    ∀ past, names.HasPast past → name ∉ past

theorem Names.new_of_lt {names : Names} (r : Request) {n : Serial}
    (lt : names.highest r < n.val) : names.New (r.name n) :=
  ⟨⟨r, n, rfl, lt⟩, fun _ known mem => Nat.not_lt.2 (known.le_highest mem) lt⟩

namespace Frame

/-- Where the variables of the callee go: its result, its inputs and its work variables. -/
def slots (frame : Frame) : List Variable :=
  frame.result :: (frame.inputs ++ frame.works)

/-- An instruction of the callee carries the label or jumps to it. The empty label counts, since
a jump may fall through. -/
def Uses (callee : Program) (l : Label) : Prop :=
  l = .empty ∨ ∃ i ∈ callee.instructions.toList, i.label = l ∨ i.target? = some l

/-- The frame is a copy of the callee under names that are all new. -/
structure CapturesNothing (frame : Frame) (c : Call) (callee : Program) (rule : ExitRule)
    (names : Names) (var : Variable → Variable) (label : Label → Label) : Prop where
  body : frame.body = callee.instructions.toList.map fun i => detached (i.rename var label)
  slots : (c.owned callee).map var = frame.slots
  var_injective : ∀ v ∈ c.owned callee, ∀ w ∈ c.owned callee, var v = var w → v = w
  slots_new : ∀ v ∈ frame.slots, names.New (.var v)
  within : ∀ b ∈ frame.body, ∀ v ∈ b.vars, v ∈ frame.slots
  label_injective : ∀ l l', Uses callee l → Uses callee l' → label l = label l' → l = l'
  label_empty : label .empty = .empty
  labels_new : ∀ b ∈ frame.body, b.label = .empty ∨ names.New (.label b.label)
  /-- Jumps to `EXIT` go to a new label, which is there if there are such jumps. -/
  redirected : rule = .redirect →
    (∀ b ∈ frame.body, b.target? ≠ some .exit) ∧
    ((∃ l, frame.endLabel? = some l) ↔ ∃ i ∈ callee.instructions.toList, i.target? = some .exit) ∧
    ∀ l, frame.endLabel? = some l →
      label .exit = l ∧ names.New (.label l) ∧ ∀ b ∈ frame.body, b.label ≠ l
  /-- Jumps to `EXIT` stay, in their places. -/
  kept : rule = .keep → frame.endLabel? = none ∧ ∀ (k : Nat) (b : Instruction),
    frame.body[k]? = some b → ∃ i, callee.instructions[k]? = some i ∧
      (b.target? = some .exit ↔ i.target? = some .exit)

section Spliced

variable {c : Call} {callee : Program} {rule : ExitRule} {names : Names}

theorem mem_labels_of_uses (assembled : callee.Assembled) {l : Label} (uses : Uses callee l) :
    l ∈ .empty :: callee.labels := by
  obtain rfl | ⟨i, mem, own | target⟩ := uses
  · exact List.mem_cons_self ..
  · by_cases absent : l = .empty
    · exact absent ▸ List.mem_cons_self ..
    · refine List.mem_cons_of_mem _ (mem_labels_iff.2 (.inl ?_))
      rw [← own]
      exact assembled.exists_position?_label mem (own ▸ absent)
  · cases l with
    | empty => exact List.mem_cons_self ..
    | numbered n =>
      exact List.mem_cons_of_mem _ (mem_labels_iff.2 (.inl (assembled.exists_position? mem target)))
    | exit =>
      have jumps := Program.jumpsTo_iff.2 ⟨i, mem, target⟩
      exact List.mem_cons_of_mem _ (mem_labels_iff.2 (.inr ⟨rfl, jumps⟩))

/-- Every slot is drawn. -/
theorem new_var (assembled : callee.Assembled)
    (works : names.highestWork + c.namesNeeded callee ≤ Serial.last) {v : Variable}
    (own : v ∈ c.owned callee) : names.New (.var ((mapping c callee rule names).var v)) := by
  have drawn := var_mem_worksAfter rule names assembled (by omega) own
  obtain ⟨n, eq, gt, -⟩ := (Drafting.mem_worksAfter_iff (.inr works)).1 drawn
  rw [eq]
  exact Names.new_of_lt .work gt

/-- A label in the body is that of an instruction of the callee, renamed. -/
theorem label_of_mem_body (assembled : callee.Assembled)
    (inside : ∀ i ∈ callee.instructions.toList, i.label ≠ .exit) {b : Instruction}
    (mem : b ∈ (spliced c callee rule names).body) : b.label = .empty ∨
      ∃ l ∈ moved callee rule, l ≠ .exit ∧ b.label = (mapping c callee rule names).label l := by
  obtain ⟨i, occurs, rfl⟩ := List.mem_map.1 mem
  rw [label_detached]
  split
  · exact .inl rfl
  · rename_i labelled
    have ne : i.label ≠ .empty := fun eq => labelled (Program.isEmpty_iff.2 eq)
    have outside := inside i occurs
    have own := mem_labels_iff.2 (.inl (assembled.exists_position?_label occurs ne))
    refine .inr ⟨i.label, ?_, outside, rfl⟩
    cases label : i.label with
    | empty => exact absurd label ne
    | numbered n =>
      rw [label] at own
      exact numbered_mem_moved own
    | exit => exact absurd label outside

theorem target?_detached (i : Instruction) :
    (detached ((mapping c callee rule names).instruction i)).target? =
      i.target?.map (mapping c callee rule names).label :=
  Operation.target?_rename _ _ i.op

theorem endLabel?_of_not_moved (kept : .exit ∉ moved callee rule) :
    (spliced c callee rule names).endLabel? = none :=
  Renaming.lookup_zip_of_not_mem kept

section Labels

variable (labels : (moved callee rule).length = 0 ∨
  names.highestLabel + (moved callee rule).length ≤ Serial.last)

include labels

/-- Every label that is renamed is drawn. -/
theorem new_label {l : Label} (mem : l ∈ moved callee rule) :
    names.New (.label ((mapping c callee rule names).label l)) := by
  obtain ⟨n, eq, gt⟩ := label_of_moved (c := c) labels mem
  rw [eq]
  exact Names.new_of_lt .label gt

/-- Nothing but `EXIT` becomes `EXIT`, and only by staying what it is. -/
theorem label_eq_exit {l : Label} (same : (mapping c callee rule names).label l = .exit) :
    l = .exit ∧ l ∉ moved callee rule := by
  by_cases moves : l ∈ moved callee rule
  · obtain ⟨n, renamed, -⟩ := label_of_moved (c := c) labels moves
    rw [renamed] at same
    cases same
  · rw [label_of_not_moved moves] at same
    exact ⟨same, moves⟩

theorem endLabel?_of_moved (mem : .exit ∈ moved callee rule) :
    (spliced c callee rule names).endLabel? =
      some ((mapping c callee rule names).label .exit) := by
  obtain ⟨n, renamed, -⟩ := label_of_moved (c := c) labels mem
  change (mapping c callee rule names).labels.lookup .exit = _
  unfold Renaming.label at renamed ⊢
  cases found : (mapping c callee rule names).labels.lookup .exit with
  | none =>
    rw [found] at renamed
    cases renamed
  | some l => rfl

/-- The label after the body is on no instruction in it. -/
theorem label_ne_endLabel (assembled : callee.Assembled)
    (inside : ∀ i ∈ callee.instructions.toList, i.label ≠ .exit)
    (moves : .exit ∈ moved callee rule) {b : Instruction}
    (mem : b ∈ (spliced c callee rule names).body) :
    b.label ≠ (mapping c callee rule names).label .exit := by
  intro same
  obtain ⟨n, renamed, -⟩ := label_of_moved (c := c) labels moves
  obtain unlabelled | ⟨l, moves', ne, own⟩ := label_of_mem_body assembled inside mem
  · rw [unlabelled, renamed] at same
    cases same
  · exact ne (label_injOn_moved labels moves' moves (own.symm.trans same))

end Labels

/-- With the end redirected, `EXIT` is renamed if it is jumped to. -/
theorem exit_mem_moved_iff (assembled : callee.Assembled)
    (inside : ∀ i ∈ callee.instructions.toList, i.label ≠ .exit) :
    .exit ∈ moved callee .redirect ↔ ∃ i ∈ callee.instructions.toList, i.target? = some .exit := by
  rw [← Program.jumpsTo_iff, moved, List.mem_filter, mem_labels_iff]
  constructor
  · rintro ⟨⟨k, found⟩ | ⟨-, jumps⟩, -⟩
    · obtain ⟨-, i, at_k, own⟩ := assembled.position?_eq_some_iff.1 found
      exact absurd own (inside i (List.mem_of_getElem? at_k))
    · exact jumps
  · exact fun jumps => ⟨.inr ⟨rfl, jumps⟩, rfl⟩

section Endings

variable (assembled : callee.Assembled)
  (inside : ∀ i ∈ callee.instructions.toList, i.label ≠ .exit)

include assembled inside

theorem redirected_of_labels (labels : (moved callee .redirect).length = 0 ∨
      names.highestLabel + (moved callee .redirect).length ≤ Serial.last) :
    (∀ b ∈ (spliced c callee .redirect names).body, b.target? ≠ some .exit) ∧
      ((∃ l, (spliced c callee .redirect names).endLabel? = some l) ↔
        ∃ i ∈ callee.instructions.toList, i.target? = some .exit) ∧
      ∀ l, (spliced c callee .redirect names).endLabel? = some l →
        (mapping c callee .redirect names).label .exit = l ∧ names.New (.label l) ∧
          ∀ b ∈ (spliced c callee .redirect names).body, b.label ≠ l := by
  have exits := exit_mem_moved_iff assembled inside
  have moves_of_ends {l : Label} (ends : (spliced c callee .redirect names).endLabel? = some l) :
      .exit ∈ moved callee .redirect := by
    by_contra stays
    exact nomatch (endLabel?_of_not_moved stays).symm.trans ends
  refine ⟨fun b mem target => ?_, ?_, fun l ends => ?_⟩
  · obtain ⟨i, own, rfl⟩ := List.mem_map.1 mem
    rw [target?_detached] at target
    obtain ⟨l, jumps, renamed⟩ := Option.map_eq_some_iff.1 target
    obtain ⟨rfl, stays⟩ := label_eq_exit labels renamed
    exact stays (exits.2 ⟨i, own, jumps⟩)
  · rw [← exits]
    exact ⟨fun ⟨l, ends⟩ => moves_of_ends ends, fun moves => ⟨_, endLabel?_of_moved labels moves⟩⟩
  · have moves := moves_of_ends ends
    obtain rfl := Option.some.inj ((endLabel?_of_moved labels moves).symm.trans ends)
    exact ⟨rfl, new_label labels moves,
      fun b mem => label_ne_endLabel labels assembled inside moves mem⟩

omit assembled inside in
theorem kept_of_labels (labels : (moved callee .keep).length = 0 ∨
      names.highestLabel + (moved callee .keep).length ≤ Serial.last) {k : Nat} {b : Instruction}
    (at_k : (spliced c callee .keep names).body[k]? = some b) :
    ∃ i, callee.instructions[k]? = some i ∧ (b.target? = some .exit ↔ i.target? = some .exit) := by
  obtain ⟨i, at_i, rfl⟩ := Option.map_eq_some_iff.1 (List.getElem?_map.symm.trans at_k)
  refine ⟨i, Array.getElem?_toList.symm.trans at_i, ?_⟩
  rw [target?_detached, Option.map_eq_some_iff]
  constructor
  · rintro ⟨l, jumps, renamed⟩
    obtain ⟨rfl, -⟩ := label_eq_exit labels renamed
    exact jumps
  · exact fun jumps => ⟨.exit, jumps, label_of_not_moved exit_not_mem_moved⟩

end Endings

end Spliced

/-- A splice of a callee that succeeds, whatever the call, the names that have been drawn before
and what is to become of `EXIT`, is a copy of the callee under new names. -/
theorem splice_captures_nothing {header : Header} {records : List Record} {callee : Program}
    (loaded : Program.load header records = .ok callee) {functions : Functions} {c : Call}
    (found : functions.find? c.function = some callee) {rule : ExitRule} {names after : Names}
    {frame : Frame} (spliced : (splice functions c rule).run names = (.ok frame, after)) :
    frame.callee = callee ∧ ∃ var label, frame.CapturesNothing c callee rule names var label := by
  have assembled := Program.assembled_of_load loaded
  have inside := Program.label_ne_exit_of_load loaded
  obtain ⟨works, labels, rfl, -⟩ := splice_of_found found assembled spliced
  have slots : (c.owned callee).map (mapping c callee rule names).var =
      (Frame.spliced c callee rule names).slots := by
    rw [Call.owned, List.map_cons, List.map_append]
    rfl
  refine ⟨rfl, (mapping c callee rule names).var, (mapping c callee rule names).label, {
    body := rfl
    slots := slots
    var_injective := var_injOn_owned assembled works
    slots_new := ?_
    within := ?_
    label_injective := fun _ _ uses uses' =>
      label_injOn labels (mem_labels_of_uses assembled uses) (mem_labels_of_uses assembled uses')
    label_empty := label_of_not_moved (empty_not_mem_moved _)
    labels_new := ?_
    redirected := ?_
    kept := ?_ }⟩
  · rw [← slots, List.forall_mem_map]
    exact fun v own => new_var assembled works own
  · intro b mem v occurs
    obtain ⟨i, own, rfl⟩ := List.mem_map.1 mem
    have renamed : v ∈ i.vars.map (mapping c callee rule names).var := by
      rw [← Instruction.vars_rename _ (mapping c callee rule names).label]
      exact occurs
    obtain ⟨w, used, rfl⟩ := List.mem_map.1 renamed
    rw [← slots]
    exact List.mem_map_of_mem (Call.vars_subset_owned assembled w
      (assembled.mem_vars_iff.2 (.inr ⟨i, own, used⟩)))
  · intro b mem
    refine (label_of_mem_body assembled inside mem).imp_right ?_
    rintro ⟨l, moves, -, own⟩
    rw [own]
    exact new_label labels moves
  · rintro rfl
    exact redirected_of_labels assembled inside labels
  · rintro rfl
    exact ⟨endLabel?_of_not_moved exit_not_mem_moved, fun k b at_k => kept_of_labels labels at_k⟩

/-- Two inputs are skipped, the work variable is only an argument of a nested call, and the body
may leave early. -/
def leavingEarly : List Record := [
  { name := "JUMP_NOT_ZERO", label? := some "L5", subject := "x3",
    arguments := [("JNZLabel", "EXIT")] },
  { name := "QUOTE", subject := "y",
    arguments := [("functionName", "S"), ("functionArguments", "(S,z4)")] }]

def thirdInput : Variable := .input { val := 3 }

def fourthWork : Variable := .work { val := 4 }

def twiceFourth : Call := ⟨"S", [.call "S" [.var fourthWork]]⟩

def leaver : Program where
  header := ⟨"E", "E", .function⟩
  degree := 0
  instructions := #[
    { subject := thirdInput, op := .jumpNotZero .exit, label := .numbered { val := 5 },
      number := 1 },
    { subject := .result, op := .quote twiceFourth, id := 1, number := 2 }]
  positions := (∅ : Std.TreeMap Label Nat).insert (.numbered { val := 5 }) 0
  inputs := .ofList [thirdInput]
  works := .ofList [fourthWork]
  names := { highestLabel := 5, highestWork := 4 }

/-- The call is read by hand: the reader of arguments does not evaluate. -/
theorem load_leavingEarly : Program.load ⟨"E", "E", .function⟩ leavingEarly = .ok leaver := by
  have parsed : Call.parse "S" "(S,z4)" = .ok twiceFourth := by
    refine Call.parse_argumentList (c := twiceFourth) ⟨by decide, by decide, ?_⟩
    exact List.forall_mem_singleton.2 ⟨by decide, by decide, by simp [ArgumentToken.IsCut]⟩
  have second : (⟨"QUOTE", none, "y",
      [("functionName", "S"), ("functionArguments", "(S,z4)")]⟩ : Record).instruction =
      .ok { subject := .result, op := .quote twiceFourth } := by
    refine Program.instruction_eq_ok_iff.2
      ⟨.quote, .empty, .result, .quote twiceFourth, rfl, rfl, rfl, ?_, rfl⟩
    change (do return Operation.quote (← Call.parse "S" "(S,z4)")) = _
    rw [parsed]
    rfl
  have read : Program.loadRecords leavingEarly 0 = .ok [
      { subject := thirdInput, op := .jumpNotZero .exit, label := .numbered { val := 5 } },
      { subject := .result, op := .quote twiceFourth, id := 1 }] :=
    Program.loadRecords_cons_eq_ok_iff.2 ⟨_, _, rfl,
      Program.loadRecords_cons_eq_ok_iff.2 ⟨_, [], second, rfl, rfl⟩, rfl⟩
  rw [Program.load, if_neg (by decide), read]
  rfl

theorem arity_leaver : leaver.arity = 3 := by
  simp [Program.arity, leaver, Std.TreeSet.max?_insert, thirdInput, Variable.serial]

def leavers : Functions := ⟨[(["e"], leaver)]⟩

def callingLeaver : Call := ⟨"E", [.var .result]⟩

/-- With one argument for the first input, five slots and two labels are drawn. -/
theorem splice_captures_nothing_leaver : ∃ frame after,
    (splice leavers callingLeaver .redirect).run {} = (.ok frame, after) ∧
      after = { highestLabel := 2, highestWork := 5 } ∧
      ∃ var label, frame.CapturesNothing callingLeaver leaver .redirect {} var label := by
  have found : leavers.find? callingLeaver.function = some leaver := rfl
  have needed : callingLeaver.namesNeeded leaver = 5 := by
    have works : leaver.works.size = 1 := rfl
    simp [Call.namesNeeded, callingLeaver, arity_leaver, works]
  have moves : (moved leaver .redirect).length = 2 := by decide +kernel
  have works : ({} : Names).highestWork + callingLeaver.namesNeeded leaver ≤ Serial.last := by
    simp [needed, Serial.last]
  have labels : ({} : Names).highestLabel + (moved leaver .redirect).length ≤ Serial.last := by
    simp [moves, Serial.last]
  obtain ⟨frame, after, drawn⟩ := splice_total .redirect found works labels
  obtain ⟨-, -, -, last⟩ :=
    splice_of_found found (Program.assembled_of_load load_leavingEarly) drawn
  rw [moves, needed] at last
  exact ⟨frame, after, drawn, last, (splice_captures_nothing load_leavingEarly found drawn).2⟩

end Frame

end SLanguage
