import Mathlib.Data.List.Perm.Subperm
import SLanguage.Proofs.Lowering.Drawing

/-! What a splice draws. The variables of the callee, with all inputs that are bound, go
to work variables in a row, and so do its labels. Nothing else is needed for a splice
than a callee and enough names. -/

namespace SLanguage

namespace Variable

/-- The input variable of a number. -/
def inputAt (n : Nat) : Variable :=
  ((Serial.ofNat? n).map .input).getD .result

theorem firstInputs_eq {n : Nat} (le : n ≤ Serial.last) :
    firstInputs n = (List.range n).map fun k => inputAt (k + 1) := by
  rw [firstInputs, ← List.filterMap_eq_map]
  refine List.filterMap_congr fun k mem => ?_
  have lt := List.mem_range.1 mem
  obtain ⟨s, -, some⟩ := Serial.exists_ofNat? (n := k + 1) (by omega) (by omega)
  simp [inputAt, some]

theorem length_firstInputs {n : Nat} (le : n ≤ Serial.last) : (firstInputs n).length = n := by
  rw [firstInputs_eq le, List.length_map, List.length_range]

theorem isInput_of_mem_firstInputs {n : Nat} {v : Variable} (mem : v ∈ firstInputs n) :
    v.isInput = true := by
  obtain ⟨k, -, eq⟩ := List.mem_filterMap.1 mem
  obtain ⟨s, -, rfl⟩ := Option.map_eq_some_iff.1 eq
  rfl

theorem nodup_firstInputs (n : Nat) : (firstInputs n).Nodup := by
  refine List.nodup_range.filterMap fun a b v first second => ?_
  obtain ⟨s, at_a, rfl⟩ := Option.map_eq_some_iff.1 first
  obtain ⟨t, at_b, same⟩ := Option.map_eq_some_iff.1 second
  cases same
  have := Serial.ofNat?_eq_some_iff.1 at_a
  have := Serial.ofNat?_eq_some_iff.1 at_b
  omega

theorem input_mem_firstInputs {n : Nat} {s : Serial} (le : s.val ≤ n) :
    .input s ∈ firstInputs n := by
  have pos := s.val_pos
  refine List.mem_filterMap.2 ⟨s.val - 1, List.mem_range.2 (by omega), ?_⟩
  rw [Nat.sub_add_cancel pos, Serial.ofNat?_val]
  rfl

/-- Values run out before inputs do. -/
theorem zip_firstInputs {n : Nat} (le : n ≤ Serial.last) {values : List Nat}
    (bound : values.length ≤ n) :
    (firstInputs n).zip values = (firstInputs values.length).zip values := by
  obtain ⟨d, rfl⟩ := Nat.exists_eq_add_of_le bound
  rw [firstInputs_eq le, firstInputs_eq (by omega), List.range_add, List.map_append]
  conv_lhs => rw [← List.append_nil values]
  rw [List.zip_append (by simp)]
  simp

end Variable

theorem Program.jumpsTo_iff {p : Program} {l : Label} :
    p.jumpsTo l = true ↔ ∃ i ∈ p.instructions.toList, i.target? = some l := by
  rw [jumpsTo, Array.any_eq_true']
  simp

/-- How many work variables a splice of the call draws. -/
def Call.namesNeeded (c : Call) (callee : Program) : Nat :=
  1 + max c.arguments.length callee.arity + callee.works.size

/-- The variables that a splice of the call renames: those of the callee, and the inputs
that are bound without being used. -/
def Call.owned (c : Call) (callee : Program) : List Variable :=
  .result :: (Variable.firstInputs (max c.arguments.length callee.arity) ++
    callee.works.toList)

namespace Call

variable {c : Call} {callee : Program}

theorem length_owned (le : c.namesNeeded callee ≤ Serial.last) :
    (c.owned callee).length = c.namesNeeded callee := by
  unfold namesNeeded at le
  rw [owned, List.length_cons, List.length_append, Variable.length_firstInputs (by omega),
    Std.TreeSet.length_toList, namesNeeded]
  omega

theorem nodup_owned (assembled : callee.Assembled) : (c.owned callee).Nodup := by
  have isWork : ∀ v ∈ callee.works.toList, v.isWork = true := fun v mem =>
    (assembled.mem_works_iff.1 (Std.TreeSet.mem_toList.1 mem)).1
  rw [owned, List.nodup_cons, List.nodup_append]
  refine ⟨?_, Variable.nodup_firstInputs _, ?_, ?_⟩
  · intro mem
    obtain mem | mem := List.mem_append.1 mem
    · cases Variable.isInput_of_mem_firstInputs mem
    · cases isWork _ mem
  · exact Std.TreeSet.distinct_toList.imp Std.ReflCmp.ne_of_cmp_ne_eq
  · rintro v mem _ mem' rfl
    have isInput := Variable.isInput_of_mem_firstInputs mem
    have isWork := isWork _ mem'
    cases v
    case input => cases isWork
    all_goals cases isInput

theorem vars_subset_owned (assembled : callee.Assembled) :
    ∀ v ∈ callee.vars, v ∈ c.owned callee := by
  intro v mem
  unfold Program.vars at mem
  unfold owned
  simp only [List.mem_cons, List.mem_append, Std.TreeSet.mem_toList] at mem ⊢
  refine mem.imp_right (Or.imp_left fun mem => ?_)
  have isInput := (assembled.mem_inputs_iff.1 mem).1
  cases v with
  | input s =>
    exact Variable.input_mem_firstInputs
      (Nat.le_trans (assembled.serial_le_arity mem) (Nat.le_max_right ..))
  | _ => cases isInput

end Call

namespace Renaming

/-- A finite map sends its keys, in order, to its values. -/
theorem map_lookup_zip {α : Type} [BEq α] [LawfulBEq α] {keys values : List α}
    (nodup : keys.Nodup) (length : keys.length = values.length) :
    keys.map (fun k => ((keys.zip values).lookup k).getD k) = values := by
  induction keys generalizing values with
  | nil => simpa [eq_comm] using length
  | cons key keys ih =>
    obtain ⟨fresh, nodup⟩ := List.nodup_cons.1 nodup
    cases values with
    | nil => cases length
    | cons value values =>
      rw [List.map_cons, List.zip_cons_cons, List.lookup_cons_self, Option.getD_some]
      refine congrArg (value :: ·) ((List.map_congr_left fun k mem => ?_).trans
        (ih nodup (Nat.succ.inj length)))
      have ne : (k == key) = false := beq_false_of_ne fun eq => fresh (eq ▸ mem)
      rw [List.lookup_cons, ne]

theorem lookup_zip_of_not_mem {α : Type} [BEq α] [LawfulBEq α] {keys values : List α} {k : α}
    (fresh : k ∉ keys) : (keys.zip values).lookup k = none := by
  rw [List.lookup_eq_none_iff]
  rintro ⟨key, value⟩ mem
  refine bne_iff_ne.2 fun eq => fresh ?_
  rw [eq]
  exact (List.of_mem_zip mem).1

end Renaming

namespace Frame

/-- Whether a splice gives a label a new name. -/
def moves (rule : ExitRule) : Label → Bool
  | .empty => false
  | .numbered _ => true
  | .exit => rule = .redirect

/-- The labels that a splice renames. -/
def moved (callee : Program) (rule : ExitRule) : List Label :=
  callee.labels.filter (moves rule)

theorem freshLabels_cons (l : Label) (rest : List Label) (rule : ExitRule) :
    freshLabels (l :: rest) rule =
      if moves rule l then do
        let fresh ← Drafting.label
        return (l, fresh) :: (← freshLabels rest rule)
      else freshLabels rest rule := by
  cases l <;> cases rule <;> rfl

theorem drawn_freshLabels {labels : List Label} {rule : ExitRule} {names : Names}
    (enough : names.highestLabel + (labels.filter (moves rule)).length ≤ Serial.last) :
    (freshLabels labels rule).drawn names =
      (.ok ((labels.filter (moves rule)).zip
          (Drafting.labelsAfter names.highestLabel (labels.filter (moves rule)).length)),
        { names with
          highestLabel := names.highestLabel + (labels.filter (moves rule)).length }) := by
  induction labels generalizing names with
  | nil => rfl
  | cons l rest ih =>
    rw [freshLabels_cons]
    by_cases moving : moves rule l
    · rw [List.filter_cons_of_pos moving, List.length_cons] at enough ⊢
      rw [if_pos moving, Drafting.drawn_bind, Drafting.drawn_label, if_pos (by omega)]
      simp only [Drafting.drawn_bind]
      rw [ih (by simp only; omega), Nat.add_right_comm names.highestLabel 1, Nat.add_assoc]
      simp only [Drafting.drawn_pure, Drafting.labelsAfter, List.range'_succ, List.map_cons,
        List.zip_cons_cons]
    · rw [List.filter_cons_of_neg moving] at enough ⊢
      rw [if_neg moving]
      exact ih enough

/-- Labels are renamed only if there are enough serials. -/
theorem freshLabels_eq_ok {labels : List Label} {rule : ExitRule} {names after : Names}
    {fresh : List (Label × Label)}
    (h : (freshLabels labels rule).drawn names = (.ok fresh, after)) :
    ((labels.filter (moves rule)).length = 0 ∨
      names.highestLabel + (labels.filter (moves rule)).length ≤ Serial.last) ∧
    fresh = (labels.filter (moves rule)).zip
      (Drafting.labelsAfter names.highestLabel (labels.filter (moves rule)).length) ∧
    after = { names with
      highestLabel := names.highestLabel + (labels.filter (moves rule)).length } := by
  induction labels generalizing names after fresh with
  | nil =>
    cases h
    exact ⟨.inl rfl, rfl, rfl⟩
  | cons l rest ih =>
    have opened := h
    rw [freshLabels_cons] at opened
    by_cases moving : moves rule l
    · rw [if_pos moving] at opened
      obtain ⟨first, mid, drawn, tail⟩ := Drafting.drawn_bind_eq_ok.1 opened
      obtain ⟨lt, -, rfl⟩ := Drafting.label_eq_ok drawn
      obtain ⟨others, last, tail, -⟩ := Drafting.drawn_bind_eq_ok.1 tail
      have enough : names.highestLabel + ((l :: rest).filter (moves rule)).length ≤
          Serial.last := by
        rw [List.filter_cons_of_pos moving, List.length_cons]
        obtain none | le := (ih tail).1
        · omega
        · simp only at le
          omega
      rw [drawn_freshLabels enough] at h
      cases h
      exact ⟨.inr enough, rfl, rfl⟩
    · rw [if_neg moving] at opened
      rw [List.filter_cons_of_neg moving]
      exact ih opened

theorem nodup_labels (p : Program) : p.labels.Nodup := by
  unfold Program.labels
  split
  · rename_i jumps
    simp only [Bool.and_eq_true, Bool.not_eq_true'] at jumps
    refine List.nodup_append.2 ⟨Std.TreeMap.nodup_keys, List.nodup_singleton _, ?_⟩
    rintro l mem _ mem' rfl
    rw [List.mem_singleton] at mem'
    subst mem'
    rw [Std.TreeMap.mem_keys, ← Std.TreeMap.contains_iff_mem] at mem
    exact Bool.false_ne_true (jumps.2.symm.trans mem)
  · rw [List.append_nil]
    exact Std.TreeMap.nodup_keys

theorem mem_labels_iff {p : Program} {l : Label} :
    l ∈ p.labels ↔ (∃ k, p.position? l = some k) ∨ l = .exit ∧ p.jumpsTo .exit = true := by
  have filed : l ∈ p.positions.keys ↔ ∃ k, p.position? l = some k := by
    rw [Std.TreeMap.mem_keys, Std.TreeMap.mem_iff_isSome_getElem?, Option.isSome_iff_exists]
    rfl
  unfold Program.labels
  rw [List.mem_append, filed]
  refine or_congr_right' fun missing => ?_
  split
  · rename_i jumps
    simp only [Bool.and_eq_true, Bool.not_eq_true'] at jumps
    simp [jumps.1]
  · rename_i jumps
    simp only [List.not_mem_nil, false_iff]
    rintro ⟨rfl, target⟩
    refine jumps ?_
    rw [target, Std.TreeMap.contains_eq_isSome_getElem?]
    cases found : p.positions[Label.exit]? with
    | none => rfl
    | some k => exact absurd ⟨k, found⟩ missing

/-- There are as many serials as numbered labels. -/
theorem length_moved_keep_le (p : Program) : (moved p .keep).length ≤ Serial.last := by
  have subset : moved p .keep ⊆ Drafting.labelsAfter 0 Serial.last := by
    intro l mem
    have moving := (List.mem_filter.1 mem).2
    cases l with
    | numbered n =>
      have last : 0 + Serial.last = Serial.last := Nat.zero_add _
      exact (Drafting.mem_labelsAfter_iff (.inr (Nat.le_of_eq last))).2
        ⟨n, rfl, n.val_pos, last.symm ▸ n.val_le⟩
    | empty => cases moving
    | exit => cases moving
  have le := (List.subperm_of_subset ((nodup_labels p).filter _) subset).length_le
  rwa [Drafting.length_labelsAfter] at le

/-- The names that a splice of the call gives to what belongs to the callee. -/
def mapping (c : Call) (callee : Program) (rule : ExitRule) (names : Names) : Renaming where
  vars := (c.owned callee).zip (Drafting.worksAfter names.highestWork (c.namesNeeded callee))
  labels := (moved callee rule).zip
    (Drafting.labelsAfter names.highestLabel (moved callee rule).length)

/-- The frame that a splice of the call gives, if there are enough names. -/
def spliced (c : Call) (callee : Program) (rule : ExitRule) (names : Names) : Frame :=
  let map := mapping c callee rule names
  { callee
    result := map.var .result
    inputs := (Variable.firstInputs (max c.arguments.length callee.arity)).map map.var
    works := callee.works.toList.map map.var
    body := callee.instructions.toList.map fun i => detached (map.instruction i)
    endLabel? := map.labels.lookup .exit }

section Renaming

variable {c : Call} {callee : Program} {rule : ExitRule} {names : Names}

theorem map_var_owned (rule : ExitRule) (names : Names) (assembled : callee.Assembled)
    (le : c.namesNeeded callee ≤ Serial.last) :
    (c.owned callee).map (mapping c callee rule names).var =
      Drafting.worksAfter names.highestWork (c.namesNeeded callee) :=
  Renaming.map_lookup_zip (Call.nodup_owned assembled)
    (by rw [Call.length_owned le, Drafting.length_worksAfter])

/-- The names of the callee are drawn. -/
theorem var_mem_worksAfter (rule : ExitRule) (names : Names) (assembled : callee.Assembled)
    (le : c.namesNeeded callee ≤ Serial.last) {v : Variable} (own : v ∈ c.owned callee) :
    (mapping c callee rule names).var v ∈
      Drafting.worksAfter names.highestWork (c.namesNeeded callee) := by
  rw [← map_var_owned rule names assembled le]
  exact List.mem_map_of_mem own

theorem map_label_moved :
    (moved callee rule).map (mapping c callee rule names).label =
      Drafting.labelsAfter names.highestLabel (moved callee rule).length :=
  Renaming.map_lookup_zip ((nodup_labels callee).filter _)
    (by rw [Drafting.length_labelsAfter])

theorem var_injOn_owned (assembled : callee.Assembled)
    (last : names.highestWork + c.namesNeeded callee ≤ Serial.last) :
    ∀ v ∈ c.owned callee, ∀ w ∈ c.owned callee,
      (mapping c callee rule names).var v = (mapping c callee rule names).var w → v = w := by
  intro v mem_v w mem_w eq
  have nodup := Drafting.nodup_worksAfter last
  rw [← map_var_owned rule names assembled (by omega)] at nodup
  exact List.inj_on_of_nodup_map nodup mem_v mem_w eq

section Moved

variable (labels : (moved callee rule).length = 0 ∨
  names.highestLabel + (moved callee rule).length ≤ Serial.last)

include labels

theorem label_of_moved {l : Label} (mem : l ∈ moved callee rule) :
    ∃ n, (mapping c callee rule names).label l = .numbered n ∧ names.highestLabel < n.val := by
  have drawn := List.mem_map_of_mem (f := (mapping c callee rule names).label) mem
  rw [map_label_moved] at drawn
  obtain ⟨n, eq, gt, -⟩ := (Drafting.mem_labelsAfter_iff labels).1 drawn
  exact ⟨n, eq, gt⟩

theorem label_injOn_moved {l l' : Label}
    (mem : l ∈ moved callee rule) (mem' : l' ∈ moved callee rule)
    (eq : (mapping c callee rule names).label l = (mapping c callee rule names).label l') :
    l = l' := by
  have nodup := Drafting.nodup_labelsAfter labels
  rw [← map_label_moved (c := c)] at nodup
  exact List.inj_on_of_nodup_map nodup mem mem' eq

end Moved

theorem label_of_not_moved {l : Label} (kept : l ∉ moved callee rule) :
    (mapping c callee rule names).label l = l := by
  rw [Renaming.label, mapping, Renaming.lookup_zip_of_not_mem kept]
  rfl

theorem mapping_vars (rule : ExitRule) (names : Names) (le : c.namesNeeded callee ≤ Serial.last) :
    (mapping c callee rule names).vars =
      (.result, .workAt (names.highestWork + 1)) ::
        ((Variable.firstInputs (max c.arguments.length callee.arity)).zip
            (Drafting.worksAfter (names.highestWork + 1)
              (max c.arguments.length callee.arity)) ++
          callee.works.toList.zip (Drafting.worksAfter
            (names.highestWork + 1 + max c.arguments.length callee.arity)
            callee.works.size)) := by
  have bound : max c.arguments.length callee.arity ≤ Serial.last := by
    unfold Call.namesNeeded at le
    omega
  rw [mapping, Call.namesNeeded, Drafting.worksAfter_add, Drafting.worksAfter_add,
    Drafting.worksAfter_one, ← Nat.add_assoc, Call.owned, List.append_assoc,
    List.singleton_append, List.zip_cons_cons, List.zip_append]
  rw [Variable.length_firstInputs bound, Drafting.length_worksAfter]

theorem arguments_le_inputs (rule : ExitRule) (names : Names)
    (le : c.namesNeeded callee ≤ Serial.last) :
    c.arguments.length ≤ (spliced c callee rule names).inputs.length := by
  unfold Call.namesNeeded at le
  rw [spliced, List.length_map, Variable.length_firstInputs (by omega)]
  exact Nat.le_max_left ..

/-- The slots of a frame stand in the order in which they are drawn. -/
theorem slots_of_spliced (rule : ExitRule) (names : Names) (assembled : callee.Assembled)
    (le : c.namesNeeded callee ≤ Serial.last) :
    (spliced c callee rule names).result = .workAt (names.highestWork + 1) ∧
      (spliced c callee rule names).inputs = Drafting.worksAfter (names.highestWork + 1)
        (max c.arguments.length callee.arity) ∧
      (spliced c callee rule names).works = Drafting.worksAfter
        (names.highestWork + 1 + max c.arguments.length callee.arity) callee.works.size := by
  have bound : max c.arguments.length callee.arity ≤ Serial.last := by
    unfold Call.namesNeeded at le
    omega
  have slots := map_var_owned rule names assembled le
  rw [Call.namesNeeded, Drafting.worksAfter_add, Drafting.worksAfter_add,
    Drafting.worksAfter_one, ← Nat.add_assoc, Call.owned, List.map_cons, List.map_append,
    List.append_assoc, List.singleton_append] at slots
  obtain ⟨head, slots⟩ := List.cons.inj slots
  obtain ⟨inputs, works⟩ := List.append_inj slots
    (by rw [List.length_map, Variable.length_firstInputs bound, Drafting.length_worksAfter])
  exact ⟨head, inputs, works⟩

end Renaming

/-- A splice of a callee that succeeds has got all its names. -/
theorem splice_of_found {functions : Functions} {c : Call} {callee : Program}
    (found : functions.find? c.function = some callee) (assembled : callee.Assembled)
    {rule : ExitRule} {names after : Names} {frame : Frame}
    (h : (splice functions c rule).drawn names = (.ok frame, after)) :
    names.highestWork + c.namesNeeded callee ≤ Serial.last ∧
      ((moved callee rule).length = 0 ∨
        names.highestLabel + (moved callee rule).length ≤ Serial.last) ∧
      frame = spliced c callee rule names ∧
      after = {
        highestLabel := names.highestLabel + (moved callee rule).length
        highestWork := names.highestWork + c.namesNeeded callee } := by
  unfold splice at h
  simp only [found] at h
  obtain ⟨y, names₁, first, h⟩ := Drafting.drawn_bind_eq_ok.1 h
  obtain ⟨inputs, names₂, second, h⟩ := Drafting.drawn_bind_eq_ok.1 h
  obtain ⟨works, names₃, third, h⟩ := Drafting.drawn_bind_eq_ok.1 h
  obtain ⟨labels, names₄, fourth, h⟩ := Drafting.drawn_bind_eq_ok.1 h
  obtain ⟨lt, rfl, rfl⟩ := Drafting.work_eq_ok first
  obtain ⟨enough, rfl, rfl⟩ := Drafting.works_eq_ok second
  obtain ⟨enough', rfl, rfl⟩ := Drafting.works_eq_ok third
  obtain ⟨labelsLast, rfl, rfl⟩ := freshLabels_eq_ok fourth
  simp only at enough enough' labelsLast
  have worksLast : names.highestWork + c.namesNeeded callee ≤ Serial.last := by
    unfold Call.namesNeeded
    omega
  have le : c.namesNeeded callee ≤ Serial.last := by omega
  obtain ⟨result, inputs, works⟩ := slots_of_spliced rule names assembled le
  rw [Drafting.length_worksAfter, ← mapping_vars rule names le] at h
  cases h
  refine ⟨worksLast, labelsLast, ?_, ?_⟩
  · exact Frame.mk.injEq .. |>.mpr
      ⟨rfl, result.symm, inputs.symm, works.symm, rfl, rfl⟩
  · rw [Call.namesNeeded, ← Nat.add_assoc, ← Nat.add_assoc]
    rfl

theorem splice_eq_ok {functions : Functions} (assembled : ∀ f ∈ functions.items, f.Assembled)
    {c : Call} {rule : ExitRule} {names after : Names} {frame : Frame}
    (h : (splice functions c rule).drawn names = (.ok frame, after)) :
    ∃ callee, functions.find? c.function = some callee ∧
      names.highestWork + c.namesNeeded callee ≤ Serial.last ∧
      ((moved callee rule).length = 0 ∨
        names.highestLabel + (moved callee rule).length ≤ Serial.last) ∧
      frame = spliced c callee rule names ∧
      after = {
        highestLabel := names.highestLabel + (moved callee rule).length
        highestWork := names.highestWork + c.namesNeeded callee } := by
  cases found : functions.find? c.function with
  | none => simp [splice, found] at h
  | some callee =>
    have callee_assembled := assembled callee (Functions.mem_items_of_find? found)
    exact ⟨callee, rfl, splice_of_found found callee_assembled h⟩

/-- A callee and enough names are all that a splice needs. -/
theorem splice_total {functions : Functions} {c : Call} {callee : Program} (rule : ExitRule)
    {names : Names} (found : functions.find? c.function = some callee)
    (works : names.highestWork + c.namesNeeded callee ≤ Serial.last)
    (labels : names.highestLabel + (moved callee rule).length ≤ Serial.last) :
    ∃ frame after, (splice functions c rule).drawn names = (.ok frame, after) := by
  unfold Call.namesNeeded at works
  unfold splice
  simp only [found]
  rw [Drafting.drawn_bind, Drafting.drawn_work, if_pos (by omega)]
  simp only [Drafting.drawn_bind]
  rw [Drafting.drawn_works (by simp only; omega)]
  simp only
  rw [Drafting.drawn_works (by simp only; omega)]
  simp only
  rw [drawn_freshLabels (by exact labels)]
  exact ⟨_, _, rfl⟩

end Frame

end SLanguage
