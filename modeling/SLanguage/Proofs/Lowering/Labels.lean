import SLanguage.Proofs.Lowering.Callees

/-! Labels under lowering. A rule places every label that it draws, each once, and the label
of the instruction, and no others. It jumps to these and to where the instruction jumps. So
labels differ and jumps are answered in a block if they do in the program around it, and no
`EXIT` of a callee gets into it. -/

namespace SLanguage

/-- A program that the rules are written for, as loading and lowering give it. -/
structure Program.Lowerable (p : Program) : Prop where
  assembled : p.Assembled
  inside : ∀ i ∈ p.instructions.toList, i.label ≠ .exit

theorem Program.lowerable_of_ofDefinition {d : Definition} {role : Role} {p : Program}
    (loaded : ofDefinition d role = .ok p) : p.Lowerable :=
  ⟨assembled_of_ofDefinition loaded, label_ne_exit_of_ofDefinition loaded⟩

namespace Instruction

/-- The labels that instructions carry, in order. -/
def labelsOf (is : List Instruction) : List Label :=
  (is.map label).filter fun l => !l.isEmpty

theorem mem_labelsOf {is : List Instruction} {l : Label} :
    l ∈ labelsOf is ↔ l ≠ .empty ∧ ∃ i ∈ is, i.label = l := by
  rw [labelsOf, List.mem_filter, List.mem_map, and_comm, Bool.not_eq_true', ← Bool.not_eq_true,
    Program.isEmpty_iff]

@[simp] theorem labelsOf_append (is js : List Instruction) :
    labelsOf (is ++ js) = labelsOf is ++ labelsOf js := by
  rw [labelsOf, List.map_append, List.filter_append]
  rfl

theorem labelsOf_cons (i : Instruction) (is : List Instruction) :
    labelsOf (i :: is) = labelsOf [i] ++ labelsOf is :=
  labelsOf_append [i] is

theorem labelsOf_eq_nil {is : List Instruction} (unlabelled : ∀ i ∈ is, i.label = .empty) :
    labelsOf is = [] := by
  refine List.eq_nil_iff_forall_not_mem.2 fun l mem => ?_
  obtain ⟨ne, i, occurs, rfl⟩ := mem_labelsOf.1 mem
  exact ne (unlabelled i occurs)

theorem labelsOf_singleton {i : Instruction} (ne : i.label ≠ .empty) :
    labelsOf [i] = [i.label] :=
  List.filter_cons_of_pos (by simpa [← Program.isEmpty_iff] using ne)

theorem labelsOf_eq_of_detached {is js : List Instruction}
    (same : is.map Frame.detached = js.map Frame.detached) : labelsOf is = labelsOf js := by
  have labels : is.map label = js.map label := by
    have mapped := congrArg (List.map label) same
    rwa [List.map_map, List.map_map] at mapped
  rw [labelsOf, labelsOf, labels]

theorem nodup_labelsOf_iff {is : List Instruction} :
    (labelsOf is).Nodup ↔ is.Pairwise fun i j => i.label ≠ .empty → i.label ≠ j.label := by
  rw [labelsOf, List.Nodup, List.pairwise_filter, List.pairwise_map]
  refine List.Pairwise.iff fun i j => ?_
  simp only [Bool.not_eq_true', ← Bool.not_eq_true, Program.isEmpty_iff]
  constructor
  · intro apart labelled same
    exact apart labelled (same ▸ labelled) same
  · exact fun apart labelled _ => apart labelled

/-- Labels that are renamed to labels are renamed in order. -/
theorem labelsOf_map {is : List Instruction} {f : Instruction → Instruction}
    {rename : Label → Label}
    (labels : ∀ i ∈ is, (f i).label = if i.label.isEmpty then .empty else rename i.label)
    (kept : ∀ l ∈ labelsOf is, rename l ≠ .empty) :
    labelsOf (is.map f) = (labelsOf is).map rename := by
  induction is with
  | nil => rfl
  | cons i is ih =>
    obtain ⟨own, others⟩ := List.forall_mem_cons.1 labels
    rw [labelsOf_cons, List.forall_mem_append] at kept
    rw [List.map_cons, labelsOf_cons, labelsOf_cons i, List.map_append, ih others kept.2]
    refine congrArg (· ++ _) ?_
    by_cases absent : i.label.isEmpty
    · rw [if_pos absent] at own
      rw [labelsOf_eq_nil (List.forall_mem_singleton.2 own),
        labelsOf_eq_nil (List.forall_mem_singleton.2 (Program.isEmpty_iff.1 absent))]
      rfl
    · rw [if_neg absent] at own
      have ne : i.label ≠ .empty := fun eq => absent (Program.isEmpty_iff.2 eq)
      rw [labelsOf_singleton ne] at kept ⊢
      rw [labelsOf_singleton (own ▸ kept.1 _ (List.mem_singleton_self _)), own]
      rfl

end Instruction

theorem Program.Assembled.exists_position?_iff {p : Program} (assembled : p.Assembled)
    {l : Label} :
    (∃ k, p.position? l = some k) ↔ l ∈ Instruction.labelsOf p.instructions.toList := by
  rw [Instruction.mem_labelsOf]
  constructor
  · rintro ⟨k, found⟩
    obtain ⟨ne, i, at_k, own⟩ := assembled.position?_eq_some_iff.1 found
    exact ⟨ne, i, List.mem_of_getElem? at_k, own⟩
  · rintro ⟨ne, i, mem, rfl⟩
    exact assembled.exists_position?_label mem ne

open Instruction (labelsOf mem_labelsOf labelsOf_append labelsOf_cons labelsOf_eq_nil)

/-- What has been drawn between two supplies differs, and lies between their highest labels. -/
structure Names.Draws (names after : Names) (fresh : List Label) : Prop where
  mono : names.highestLabel ≤ after.highestLabel
  nodup : fresh.Nodup
  between : ∀ l ∈ fresh, ∃ n : Serial, l = .numbered n ∧
    names.highestLabel < n.val ∧ n.val ≤ after.highestLabel

namespace Names.Draws

variable {names mid after : Names} {fresh fresh' : List Label}

theorem none (same : after.highestLabel = names.highestLabel) : names.Draws after [] :=
  ⟨Nat.le_of_eq same.symm, .nil, List.forall_mem_nil _⟩

theorem append (first : names.Draws mid fresh) (second : mid.Draws after fresh') :
    names.Draws after (fresh ++ fresh') where
  mono := Nat.le_trans first.mono second.mono
  nodup := by
    refine List.nodup_append.2 ⟨first.nodup, second.nodup, ?_⟩
    rintro l mem _ mem' rfl
    obtain ⟨n, rfl, -, le⟩ := first.between l mem
    obtain ⟨n', same, gt, -⟩ := second.between _ mem'
    cases same
    exact Nat.not_lt.2 le gt
  between := by
    refine List.forall_mem_append.2 ⟨fun l mem => ?_, fun l mem => ?_⟩
    · obtain ⟨n, eq, gt, le⟩ := first.between l mem
      exact ⟨n, eq, gt, Nat.le_trans le second.mono⟩
    · obtain ⟨n, eq, gt, le⟩ := second.between l mem
      exact ⟨n, eq, Nat.lt_of_le_of_lt first.mono gt, le⟩

/-- Nothing that was known before has been drawn. -/
theorem not_mem (draws : names.Draws after fresh) {n : Serial}
    (known : n.val ≤ names.highestLabel) : .numbered n ∉ fresh := by
  intro mem
  obtain ⟨m, eq, gt, -⟩ := draws.between _ mem
  cases eq
  exact Nat.not_lt.2 known gt

theorem of_label {l : Label} (h : Drafting.label.drawn names = (.ok l, after)) :
    (∃ n, l = .numbered n) ∧ names.Draws after [l] := by
  obtain ⟨lt, rfl, rfl⟩ := Drafting.label_eq_ok h
  obtain ⟨n, val, eq⟩ := Label.numberedAt_eq (Nat.succ_pos names.highestLabel) lt
  refine ⟨⟨n, eq⟩, Nat.le_succ _, List.nodup_singleton _, List.forall_mem_singleton.2 ?_⟩
  exact ⟨n, eq, val ▸ Nat.lt_succ_self _, Nat.le_of_eq val⟩

theorem of_work {v : Variable} (h : Drafting.work.drawn names = (.ok v, after)) :
    names.Draws after [] := by
  obtain ⟨-, -, rfl⟩ := Drafting.work_eq_ok h
  exact none rfl

theorem labelsAfter {n : Nat} (last : n = 0 ∨ names.highestLabel + n ≤ Serial.last)
    (highest : after.highestLabel = names.highestLabel + n) :
    names.Draws after (Drafting.labelsAfter names.highestLabel n) where
  mono := highest ▸ Nat.le_add_right ..
  nodup := Drafting.nodup_labelsAfter last
  between l mem := by
    rw [highest]
    exact (Drafting.mem_labelsAfter_iff last).1 mem

end Names.Draws

namespace Lowering

/-- The block carries some labels that were there before, and all that have been drawn. -/
def Places (names after : Names) (kept : List Label) (block : List Instruction) : Prop :=
  ∃ fresh, names.Draws after fresh ∧ (labelsOf block).Perm (kept ++ fresh)

theorem Places.append {names mid after : Names} {kept kept' : List Label}
    {block block' : List Instruction} (first : Places names mid kept block)
    (second : Places mid after kept' block') :
    Places names after (kept ++ kept') (block ++ block') := by
  obtain ⟨fresh, draws, placed⟩ := first
  obtain ⟨fresh', draws', placed'⟩ := second
  refine ⟨fresh ++ fresh', draws.append draws', ?_⟩
  rw [labelsOf_append]
  refine (placed.append placed').trans ?_
  rw [List.append_assoc, List.append_assoc]
  exact (List.perm_append_comm_assoc fresh kept' fresh').append_left kept

/-- Whatever a block looks like, its entry is labelled besides. -/
theorem labelsOf_withEntry (i : Instruction) (block : List Instruction) :
    labelsOf (withEntry i.label block) = labelsOf [i] ++ labelsOf block := by
  unfold withEntry
  split
  · rename_i absent
    rw [labelsOf_eq_nil (List.forall_mem_singleton.2 (Program.isEmpty_iff.1 absent))]
    rfl
  · have own (j : Instruction) : labelsOf [labelled i.label j] = labelsOf [i] := rfl
    split
    · rename_i first rest
      split
      · rename_i absent
        rw [labelsOf_cons, labelsOf_cons first, own,
          labelsOf_eq_nil (List.forall_mem_singleton.2 (Program.isEmpty_iff.1 absent))]
        rfl
      · rw [labelsOf_cons, own]
    · rw [own]
      exact (List.append_nil _).symm

/-- Only the body of a callee and what follows it are labelled. -/
theorem labelsOf_callingBlock (v : Variable) (c : Call) (f : Frame) :
    labelsOf (callingBlock v c f) = labelsOf f.body ++ labelsOf [Inlined.copyOut v f] := by
  have bound (slots : List Variable) (as : List Argument) : labelsOf (bindInputs slots as) = [] :=
    labelsOf_eq_nil (labels_bindInputs slots as)
  rw [Inlined.callingBlock_eq, labelsOf_cons, labelsOf_append, labelsOf_append, labelsOf_append,
    bound, bound]
  rfl

section Rules

variable {names after : Names} {v w : Variable} {l : Label} {block : List Instruction}

theorem places_clearing {own : Label} (h : (clearing v own).drawn names = (.ok block, after)) :
    Places names after (labelsOf [labelled own (decrease v)]) block := by
  cases own with
  | empty =>
    obtain ⟨loop, mid, drawn, h⟩ := Drafting.drawn_bind_eq_ok.1 h
    cases h
    obtain ⟨⟨n, rfl⟩, draws⟩ := Names.Draws.of_label drawn
    exact ⟨_, draws, .refl _⟩
  | _ =>
    cases h
    exact ⟨[], .none rfl, .refl _⟩

theorem places_jumping (h : (jumping l).drawn names = (.ok block, after)) :
    Places names after [] block := by
  obtain ⟨z, mid, drawn, h⟩ := Drafting.drawn_bind_eq_ok.1 h
  cases h
  exact ⟨[], .of_work drawn, .refl _⟩

theorem places_copying (h : (copying v w).drawn names = (.ok block, after)) :
    Places names after [] block := by
  unfold copying at h
  by_cases eq : v = w
  · subst eq
    rw [if_pos rfl] at h
    cases h
    exact ⟨[], .none rfl, .refl _⟩
  · rw [if_neg eq] at h
    obtain ⟨l₁, names₁, first, h⟩ := Drafting.drawn_bind_eq_ok.1 h
    obtain ⟨l₂, names₂, second, h⟩ := Drafting.drawn_bind_eq_ok.1 h
    obtain ⟨l₃, names₃, third, h⟩ := Drafting.drawn_bind_eq_ok.1 h
    obtain ⟨z, names₄, fourth, h⟩ := Drafting.drawn_bind_eq_ok.1 h
    cases h
    obtain ⟨⟨n₁, rfl⟩, draws₁⟩ := Names.Draws.of_label first
    obtain ⟨⟨n₂, rfl⟩, draws₂⟩ := Names.Draws.of_label second
    obtain ⟨⟨n₃, rfl⟩, draws₃⟩ := Names.Draws.of_label third
    exact ⟨_, draws₁.append (draws₂.append (draws₃.append (.of_work fourth))), .refl _⟩

theorem places_testingZero (h : (testingZero v l).drawn names = (.ok block, after)) :
    Places names after [] block := by
  obtain ⟨done, mid, drawn, h⟩ := Drafting.drawn_bind_eq_ok.1 h
  cases h
  obtain ⟨⟨n, rfl⟩, draws⟩ := Names.Draws.of_label drawn
  exact ⟨_, draws, .refl _⟩

theorem places_testingConstant {k : UInt64}
    (h : (testingConstant v k l).drawn names = (.ok block, after)) :
    Places names after [] block := by
  obtain ⟨done, names₁, first, h⟩ := Drafting.drawn_bind_eq_ok.1 h
  obtain ⟨z, names₂, second, h⟩ := Drafting.drawn_bind_eq_ok.1 h
  cases h
  obtain ⟨⟨n, rfl⟩, draws⟩ := Names.Draws.of_label first
  refine ⟨_, draws.append (.of_work second), ?_⟩
  have unlabelled : labelsOf (assign z v :: countingDown z (.numbered n) k.toNat) = [] :=
    labelsOf_eq_nil (List.forall_mem_cons.2 ⟨rfl, labels_countingDown z (.numbered n) k.toNat⟩)
  change (labelsOf (assign z v :: countingDown z (.numbered n) k.toNat ++ _)).Perm _
  rw [labelsOf_append, unlabelled]
  exact .refl _

theorem places_testingVariable (h : (testingVariable v w l).drawn names = (.ok block, after)) :
    Places names after [] block := by
  obtain ⟨l₁, names₁, first, h⟩ := Drafting.drawn_bind_eq_ok.1 h
  obtain ⟨l₂, names₂, second, h⟩ := Drafting.drawn_bind_eq_ok.1 h
  obtain ⟨l₃, names₃, third, h⟩ := Drafting.drawn_bind_eq_ok.1 h
  obtain ⟨a, names₄, fourth, h⟩ := Drafting.drawn_bind_eq_ok.1 h
  obtain ⟨b, names₅, fifth, h⟩ := Drafting.drawn_bind_eq_ok.1 h
  cases h
  obtain ⟨⟨n₁, rfl⟩, draws₁⟩ := Names.Draws.of_label first
  obtain ⟨⟨n₂, rfl⟩, draws₂⟩ := Names.Draws.of_label second
  obtain ⟨⟨n₃, rfl⟩, draws₃⟩ := Names.Draws.of_label third
  have works := (Names.Draws.of_work fourth).append (.of_work fifth)
  refine ⟨_, draws₁.append (draws₂.append (draws₃.append works)), ?_⟩
  -- the label that is drawn first stands on the last instruction
  exact List.perm_append_singleton (Label.numbered n₁) [.numbered n₂, .numbered n₃]

theorem places_testingCall {c : Call} (h : (testingCall v c l).drawn names = (.ok block, after)) :
    Places names after [] block := by
  obtain ⟨z, mid, drawn, h⟩ := Drafting.drawn_bind_eq_ok.1 h
  cases h
  exact ⟨[], .of_work drawn, .refl _⟩

/-- The labels of a callee, with `EXIT` if it jumps there, are what a splice of it renames. -/
theorem moved_perm {callee : Program} (lowerable : callee.Lowerable) :
    (Frame.moved callee .redirect).Perm
      (labelsOf callee.instructions.toList ++ if callee.jumpsTo .exit then [.exit] else []) := by
  have outside : .exit ∉ labelsOf callee.instructions.toList := by
    intro mem
    obtain ⟨-, i, occurs, own⟩ := mem_labelsOf.1 mem
    exact lowerable.inside i occurs own
  rw [List.perm_ext_iff_of_nodup]
  · intro l
    rw [Frame.moved, List.mem_filter, Frame.mem_labels_iff,
      lowerable.assembled.exists_position?_iff, List.mem_append]
    constructor
    · rintro ⟨own | ⟨rfl, jumps⟩, -⟩
      · exact .inl own
      · rw [if_pos jumps]
        exact .inr (List.mem_singleton_self _)
    · rintro (own | last)
      · refine ⟨.inl own, ?_⟩
        have ne := (mem_labelsOf.1 own).1
        cases l with
        | empty => exact absurd rfl ne
        | _ => rfl
      · split at last
        · rename_i jumps
          obtain rfl := List.mem_singleton.1 last
          exact ⟨.inr ⟨rfl, jumps⟩, rfl⟩
        · cases last
  · exact (Frame.nodup_labels callee).filter _
  · refine List.nodup_append.2 ⟨Instruction.nodup_labelsOf_iff.2 lowerable.assembled.distinct,
      ?_, ?_⟩
    · split
      · exact List.nodup_singleton _
      · exact .nil
    · rintro l mem _ mem' rfl
      split at mem'
      · exact outside (List.mem_singleton.1 mem' ▸ mem)
      · cases mem'

section Splicing

variable {c : Call} {callee : Program} (lowerable : callee.Lowerable)
  (labels : (Frame.moved callee .redirect).length = 0 ∨
    names.highestLabel + (Frame.moved callee .redirect).length ≤ Serial.last)

include lowerable labels

theorem labelsOf_body : labelsOf (Inlined.frame c callee names).body =
    (labelsOf callee.instructions.toList).map (Inlined.map c callee names).label := by
  refine Instruction.labelsOf_map (fun i _ => Frame.label_detached _ i) fun l mem => ?_
  have own := Frame.mem_labels_iff.2 (.inl (lowerable.assembled.exists_position?_iff.2 mem))
  obtain ⟨n, renamed⟩ := Inlined.label_of_nonempty (c := c) labels own (mem_labelsOf.1 mem).1
  rw [renamed]
  exact Label.noConfusion

theorem labelsOf_copyOut : labelsOf [Inlined.copyOut v (Inlined.frame c callee names)] =
    (if callee.jumpsTo .exit then [.exit] else []).map (Inlined.map c callee names).label := by
  split
  · rename_i jumps
    obtain ⟨n, renamed, own⟩ := Inlined.endLabel (v := v) (c := c) labels
      (Frame.mem_labels_iff.2 (.inr ⟨rfl, jumps⟩))
    rw [List.map_singleton, renamed, ← own]
    exact Instruction.labelsOf_singleton (own ▸ Label.noConfusion)
  · rename_i stays
    have kept : .exit ∉ Frame.moved callee .redirect := by
      intro moved
      obtain found | ⟨-, jumps⟩ := Frame.mem_labels_iff.1 (List.mem_filter.1 moved).1
      · obtain ⟨-, i, mem, own⟩ := mem_labelsOf.1 (lowerable.assembled.exists_position?_iff.1 found)
        exact lowerable.inside i mem own
      · exact stays jumps
    have absent : (Inlined.map c callee names).labels.lookup .exit = none :=
      Renaming.lookup_zip_of_not_mem kept
    refine labelsOf_eq_nil (List.forall_mem_singleton.2 ?_)
    change ((Inlined.map c callee names).labels.lookup .exit).getD .empty = .empty
    rw [absent]
    rfl

end Splicing

theorem places_calling {functions : Functions} (lowerable : ∀ f ∈ functions.items, f.Lowerable)
    {c : Call} (h : (calling functions v c).drawn names = (.ok block, after)) :
    Places names after [] block := by
  obtain ⟨frame, mid, spliced, h⟩ := Drafting.drawn_bind_eq_ok.1 h
  cases h
  obtain ⟨callee, found, last, labels, rfl, rfl⟩ :=
    Frame.splice_eq_ok (fun f mem => (lowerable f mem).assembled) spliced
  have callee_lowerable := lowerable callee (Functions.mem_items_of_find? found)
  refine ⟨Drafting.labelsAfter names.highestLabel _, .labelsAfter labels rfl, ?_⟩
  change (labelsOf (callingBlock v c (Inlined.frame c callee names))).Perm _
  rw [labelsOf_callingBlock, labelsOf_body callee_lowerable labels,
    labelsOf_copyOut callee_lowerable labels, ← List.map_append]
  refine ((moved_perm callee_lowerable).map _).symm.trans ?_
  rw [Inlined.map, Frame.map_label_moved]
  exact .refl _

end Rules

/-- Lowering an instruction places its own label and what it draws. -/
theorem lower_places {functions : Functions} (lowerable : ∀ f ∈ functions.items, f.Lowerable)
    {i : Instruction} {names after : Names} {block : List Instruction}
    (h : (lower functions i).drawn names = (.ok block, after)) :
    Places names after (labelsOf [i]) block := by
  have entered {rule : Drafting (List Instruction)}
      (h : (do return withEntry i.label (← rule) : Drafting (List Instruction)).drawn names =
        (.ok block, after))
      (rules : ∀ inner, rule.drawn names = (.ok inner, after) → Places names after [] inner) :
      Places names after (labelsOf [i]) block := by
    obtain ⟨inner, mid, drawn, h⟩ := Drafting.drawn_bind_eq_ok.1 h
    cases h
    obtain ⟨fresh, draws, placed⟩ := rules inner drawn
    refine ⟨fresh, draws, ?_⟩
    rw [labelsOf_withEntry]
    exact placed.append_left _
  have kept (same : after = names) (own : block = [i]) :
      Places names after (labelsOf [i]) block := by
    subst own same
    refine ⟨[], .none rfl, ?_⟩
    rw [List.append_nil]
  unfold lower at h
  cases op : i.op <;> simp only [op] at h
  case zeroVariable => exact places_clearing h
  case gotoLabel l => exact entered h fun _ drawn => places_jumping drawn
  case assignment w => exact entered h fun _ drawn => places_copying drawn
  case constantAssignment k =>
    cases h
    have unlabelled : ∀ b ∈ countingUp i.subject k, b.label = .empty :=
      List.forall_mem_cons.2 ⟨rfl, fun b mem => List.eq_of_mem_replicate mem ▸ rfl⟩
    refine ⟨[], .none rfl, ?_⟩
    rw [labelsOf_withEntry, labelsOf_eq_nil unlabelled]
  case jumpZero l => exact entered h fun _ drawn => places_testingZero drawn
  case jumpEqualConstant k l => exact entered h fun _ drawn => places_testingConstant drawn
  case jumpEqualVariable w l => exact entered h fun _ drawn => places_testingVariable drawn
  case quote c => exact entered h fun _ drawn => places_calling lowerable drawn
  case jumpEqualFunction c l => exact entered h fun _ drawn => places_testingCall drawn
  all_goals
    cases h
    exact kept rfl rfl

section Targets

variable {functions : Functions} {names : Names} {i : Instruction} {v : Variable}
  {op : Operation} {block : List Instruction} {n : Nat}

/-- A jump falls through, goes where another one goes, or to a label of the block. -/
def Answered (op : Operation) (block : List Instruction) (b : Instruction) : Prop :=
  ∀ l, b.target? = some l → l = .empty ∨ op.target? = some l ∨ l ∈ labelsOf block

theorem Answered.mono {block' : List Instruction} {b : Instruction} (answered : Answered op block b)
    (subset : labelsOf block ⊆ labelsOf block') : Answered op block' b :=
  fun l target => (answered l target).imp_right (Or.imp_right fun mem => subset mem)

theorem answered_of_stays {b : Instruction} (stays : b.target? = none) :
    Answered op block b :=
  fun _ target => nomatch stays.symm.trans target

theorem answered_of_own {b : Instruction} (own : b.target? = op.target?) : Answered op block b :=
  fun _ target => .inr (.inl (own ▸ target))

theorem answered_of_mem {b : Instruction} {l : Label} (target : b.target? = some l)
    (mem : l ∈ labelsOf block) : Answered op block b := by
  intro _ target'
  obtain rfl := Option.some.inj (target.symm.trans target')
  exact .inr (.inr mem)

/-- The jumps of a spliced body stay in the body or end it. -/
theorem answered_of_body {c : Call} {callee : Program} (lowerable : callee.Lowerable)
    (labels : (Frame.moved callee .redirect).length = 0 ∨
      names.highestLabel + (Frame.moved callee .redirect).length ≤ Serial.last) :
    ∀ b ∈ (Inlined.frame c callee names).body,
      Answered op (callingBlock v c (Inlined.frame c callee names)) b := by
  intro b mem _ target
  obtain ⟨i, occurs, rfl⟩ := List.mem_map.1 mem
  change ((Inlined.map c callee names).instruction i).op.target? = some _ at target
  obtain ⟨own, jumps, rfl⟩ := Option.map_eq_some_iff.1
    ((Operation.target?_rename _ (Inlined.map c callee names).label i.op).symm.trans target)
  rw [labelsOf_callingBlock, List.mem_append]
  cases own with
  | empty => exact .inl (Frame.label_of_not_moved (Frame.empty_not_mem_moved _))
  | numbered n =>
    have placed := lowerable.assembled.exists_position?_iff.1
      (lowerable.assembled.exists_position? occurs jumps)
    refine .inr (.inr (.inl ?_))
    rw [labelsOf_body lowerable labels]
    exact List.mem_map_of_mem placed
  | exit =>
    have leaves : callee.jumpsTo .exit = true := Program.jumpsTo_iff.2 ⟨i, occurs, jumps⟩
    refine .inr (.inr (.inr ?_))
    rw [labelsOf_copyOut lowerable labels, if_pos leaves]
    exact List.mem_map_of_mem (List.mem_singleton_self _)

theorem Drafted.answered (lowerable : ∀ f ∈ functions.items, f.Lowerable)
    (drafted : Drafted functions names v op block n) : ∀ b ∈ block, Answered op block b := by
  cases drafted with
  | countingUp =>
    refine List.forall_mem_cons.2 ⟨answered_of_stays rfl, fun b mem => ?_⟩
    exact answered_of_stays (by rw [List.eq_of_mem_replicate mem]; rfl)
  | @testingConstant k l d =>
    have done : Label.numbered d ∈ labelsOf (testingConstantBlock v k.toNat (.numbered d) l
        (.workAt (names.highestWork + 1))) := by
      refine mem_labelsOf.2 ⟨Label.noConfusion, labelled (.numbered d) (neutral .result), ?_, rfl⟩
      simp [testingConstantBlock]
    refine List.forall_mem_cons.2 ⟨answered_of_stays rfl, List.forall_mem_append.2 ⟨?_, ?_⟩⟩
    · exact forall_mem_countingDown (answered_of_mem rfl done) (answered_of_stays rfl) _
    · simp only [List.forall_mem_cons]
      exact ⟨answered_of_mem rfl done, answered_of_own rfl, answered_of_stays rfl,
        List.forall_mem_nil _⟩
  | @calling c callee found labels =>
    have callee_lowerable := lowerable callee (Functions.mem_items_of_find? found)
    refine forall_mem_callingBlock.2 ⟨answered_of_stays rfl, forall_mem_bindInputs ?_ ?_, ?_,
      answered_of_body callee_lowerable labels, answered_of_stays rfl⟩
    · exact fun slot _ => answered_of_stays rfl
    · exact fun slot _ a _ => answered_of_stays (by cases a <;> rfl)
    · exact fun z _ => answered_of_stays rfl
  | _ =>
    simp [Answered, jumpingBlock, copyingBlock, testingZeroBlock, testingVariableBlock,
      testingCallBlock, labelled, neutral, increase, decrease, zero, assign, goto, jumpZero,
      jumpNotZero, Instruction.target?, Operation.target?, labelsOf, Label.isEmpty]

theorem Lowered.answered (lowerable : ∀ f ∈ functions.items, f.Lowerable)
    (lowered : Lowered functions names i block n) : ∀ b ∈ block, Answered i.op block b := by
  cases lowered with
  | basic => exact List.forall_mem_singleton.2 (answered_of_own rfl)
  | clearing op k own =>
    simp [Answered, clearingBlock, labelled, decrease, jumpNotZero, Instruction.target?,
      Operation.target?, labelsOf, Label.isEmpty]
  | @synthetic inner _ drafted =>
    have answered := drafted.answered lowerable
    have subset := List.subset_append_right (labelsOf [i]) (labelsOf inner)
    rw [← labelsOf_withEntry] at subset
    obtain ⟨first, rest, rfl, unlabelled⟩ := drafted.exists_cons
    rw [withEntry_cons _ rest unlabelled] at subset ⊢
    obtain ⟨own, others⟩ := List.forall_mem_cons.1 answered
    have entry : Answered i.op (first :: rest) (labelled i.label first) := own
    exact List.forall_mem_cons.2
      ⟨entry.mono subset, fun b mem => (others b mem).mono subset⟩

end Targets

end Lowering

end SLanguage
