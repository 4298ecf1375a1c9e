import SLanguage.Machine.Evaluator
import SLanguage.Proofs.Calls.Copies
import SLanguage.Proofs.Lowering.Failures
import SLanguage.Proofs.Lowering.Splicing

/-! What runs for a call. The scratch program of a call that is spliced is a copy of the
callee, started with the same values, and there is one as soon as there are enough
serials for the variables. Its labels never run out. -/

namespace SLanguage

theorem Mirrors.assign {vars : List Variable} {var : Variable → Variable} {s s' : Store}
    (h : Mirrors vars var s s')
    (injective : ∀ v ∈ vars, ∀ w ∈ vars, var v = var w → v = w)
    {keys : List Variable} (subset : ∀ v ∈ keys, v ∈ vars) (values : List Nat) :
    Mirrors vars var (s.assign (keys.zip values)) (s'.assign ((keys.map var).zip values)) := by
  induction keys generalizing s s' values with
  | nil => exact h
  | cons key keys ih =>
    cases values with
    | nil => exact h
    | cons value values =>
      exact ih (h.set injective (subset key (List.mem_cons_self ..)) value)
        (fun v mem => subset v (List.mem_cons_of_mem _ mem)) values

namespace Frame

variable {c : Call} {callee : Program}

theorem label_detached (map : Renaming) (i : Instruction) :
    (detached (map.instruction i)).label =
      if i.label.isEmpty then .empty else map.label i.label := rfl

theorem numbered_mem_moved {rule : ExitRule} {n : Serial} (mem : .numbered n ∈ callee.labels) :
    .numbered n ∈ moved callee rule :=
  List.mem_filter.2 ⟨mem, rfl⟩

theorem empty_not_mem_moved (rule : ExitRule) : .empty ∉ moved callee rule :=
  fun mem => Bool.noConfusion (List.mem_filter.1 mem).2

theorem exit_not_mem_moved : .exit ∉ moved callee .keep :=
  fun mem => Bool.noConfusion (List.mem_filter.1 mem).2

variable {names : Names}

/-- The labels of a spliced body differ, also from those that it does not rename. -/
theorem label_injOn {rule : ExitRule} (last : (moved callee rule).length = 0 ∨
      names.highestLabel + (moved callee rule).length ≤ Serial.last) {l l' : Label}
    (mem : l ∈ .empty :: callee.labels) (mem' : l' ∈ .empty :: callee.labels)
    (eq : (mapping c callee rule names).label l = (mapping c callee rule names).label l') :
    l = l' := by
  have moves_of_eq {l : Label} {n : Serial} (mem : l ∈ .empty :: callee.labels)
      (eq : l = .numbered n) : l ∈ moved callee rule := by
    subst eq
    exact numbered_mem_moved ((List.mem_cons.1 mem).resolve_left Label.noConfusion)
  by_cases moves : l ∈ moved callee rule <;> by_cases moves' : l' ∈ moved callee rule
  · exact label_injOn_moved last moves moves' eq
  · obtain ⟨n, renamed, -⟩ := label_of_moved (c := c) last moves
    rw [renamed, label_of_not_moved moves'] at eq
    exact absurd (moves_of_eq mem' eq.symm) moves'
  · obtain ⟨n, renamed, -⟩ := label_of_moved (c := c) last moves'
    rw [renamed, label_of_not_moved moves] at eq
    exact absurd (moves_of_eq mem eq) moves
  · rwa [label_of_not_moved moves, label_of_not_moved moves'] at eq

variable (last : names.highestLabel + (moved callee .keep).length ≤ Serial.last)

include last

/-- The body of a frame that keeps `EXIT` is a program of its own. -/
theorem assemble_spliced (assembled : callee.Assembled) (header : Header) (supply : Names) :
    ∃ q, Program.assemble header 0 (spliced c callee .keep names).body supply = .ok q := by
  have own (i : Instruction) (mem : i ∈ callee.instructions.toList)
      (labelled : i.label ≠ .empty) : i.label ∈ callee.labels :=
    mem_labels_iff.2 (.inl (assembled.exists_position?_label mem labelled))
  refine Program.assemble_total header 0 supply ?_ ?_
  · refine List.pairwise_map.2 (assembled.distinct.imp_of_mem fun {i j} mem mem' ne => ?_)
    rw [label_detached, label_detached]
    split
    · exact fun absent => absurd rfl absent
    · rename_i labelled
      have labelled : i.label ≠ .empty := fun eq => labelled (Program.isEmpty_iff.2 eq)
      split
      · exact fun named => named
      · rename_i labelled'
        have labelled' : j.label ≠ .empty := fun eq => labelled' (Program.isEmpty_iff.2 eq)
        exact fun _ eq => ne labelled
          (label_injOn (.inr last) (List.mem_cons_of_mem _ (own i mem labelled))
            (List.mem_cons_of_mem _ (own j mem' labelled')) eq)
  · intro j mem n target
    obtain ⟨i, occurs, rfl⟩ := List.mem_map.1 mem
    obtain ⟨l, target, renamed⟩ :=
      Option.map_eq_some_iff.1 ((Operation.target?_rename _ _ i.op).symm.trans target)
    cases l with
    | empty =>
      rw [label_of_not_moved (empty_not_mem_moved _)] at renamed
      cases renamed
    | exit =>
      rw [label_of_not_moved exit_not_mem_moved] at renamed
      cases renamed
    | numbered m =>
      obtain ⟨k, found⟩ := assembled.exists_position? occurs target
      obtain ⟨-, i', at_k, carries⟩ := assembled.position?_eq_some_iff.1 found
      refine ⟨k, Label.noConfusion, detached ((mapping c callee .keep names).instruction i'),
        ?_, ?_⟩
      · rw [spliced, List.getElem?_map, at_k]
        rfl
      · rw [label_detached, carries]
        exact renamed

/-- A program assembled from that body is a copy of the callee. -/
theorem copy_of_assemble (assembled : callee.Assembled)
    (works : names.highestWork + c.namesNeeded callee ≤ Serial.last) {header : Header}
    {supply : Names} {q : Program}
    (h : Program.assemble header 0 (spliced c callee .keep names).body supply = .ok q) :
    q.size = callee.size ∧
      callee.Copy q (mapping c callee .keep names).var (mapping c callee .keep names).label 0
        none := by
  have size : q.size = callee.size := by
    rw [Program.size_of_assemble h, spliced, List.length_map, Array.length_toList]
    rfl
  refine ⟨size, .of_code assembled ⟨_, _, _, _, h⟩ ?_ ?_ ?_ ?_ ?_ ?_⟩
  · intro v mem_v w mem_w
    exact var_injOn_owned assembled works v (Call.vars_subset_owned assembled v mem_v) w
      (Call.vars_subset_owned assembled w mem_w)
  · exact label_of_not_moved (empty_not_mem_moved _)
  · intro k i at_k
    rw [Nat.zero_add, Program.getElem?_of_assemble h, spliced, List.getElem?_map,
      Array.getElem?_toList, at_k]
    refine ⟨_, rfl, rfl, rfl, fun labelled => ?_⟩
    exact (label_detached _ i).trans (if_neg fun absent => labelled (Program.isEmpty_iff.1 absent))
  · intro k i n at_k own
    have found := assembled.exists_position?_label
      (List.mem_of_getElem? (Array.getElem?_toList.trans at_k)) (own ▸ Label.noConfusion)
    rw [own] at found
    obtain ⟨m, renamed, -⟩ :=
      label_of_moved (.inr last) (numbered_mem_moved (mem_labels_iff.2 (.inl found)))
    exact ⟨m, renamed⟩
  · intro k i at_k target
    rw [label_of_not_moved exit_not_mem_moved]
    rfl
  · intro k last_k
    rw [Program.follow, if_neg (by omega)]

end Frame

/-- Once a frame is drawn for a call, its body can be assembled. -/
theorem Evaluator.spliced_of_drawn {functions : Functions}
    (assembled : ∀ f ∈ functions.items, f.Assembled) {c : Call} {callee : Program}
    (found : functions.find? c.function = some callee) {frame : Frame} {supply : Names}
    (drawn : (Frame.splice functions c .keep).run {} = (.ok frame, supply)) (values : List Nat) :
    ∃ q, Program.assemble ⟨callee.name, callee.name, .function⟩ 0
        (Frame.spliced c callee .keep {}).body supply = .ok q ∧
      spliced functions c values = .ok ⟨q,
        .assign ∅ ((Frame.spliced c callee .keep {}).inputs.zip values),
        (Frame.spliced c callee .keep {}).result⟩ := by
  obtain ⟨callee', found', -, -, rfl, -⟩ := Frame.splice_eq_ok assembled drawn
  obtain rfl := Option.some.inj (found'.symm.trans found)
  have labels : ({} : Names).highestLabel + (Frame.moved callee' .keep).length ≤ Serial.last := by
    simpa using Frame.length_moved_keep_le callee'
  have header : (Frame.spliced c callee' .keep {}).callee = callee' := rfl
  obtain ⟨q, built⟩ := Frame.assemble_spliced (c := c) labels
    (assembled callee' (Functions.mem_items_of_find? found))
    ⟨callee'.name, callee'.name, .function⟩ supply
  refine ⟨q, built, ?_⟩
  unfold spliced
  simp only [drawn, Except.mapError, bind, Except.bind, header, built]
  rfl

/-- A call with enough names runs a copy of its callee, on the same values. -/
theorem Evaluator.exists_spliced {functions : Functions}
    (assembled : ∀ f ∈ functions.items, f.Assembled) {c : Call} {callee : Program}
    (found : functions.find? c.function = some callee)
    (le : c.namesNeeded callee ≤ Serial.last) {values : List Nat}
    (length : values.length = c.arguments.length) :
    ∃ q s var label, spliced functions c values = .ok ⟨q, s, var .result⟩ ∧
      q.size = callee.size ∧ callee.Copy q var label 0 none ∧
      Mirrors callee.vars var (.ofInputs values) s := by
  have callee_assembled := assembled callee (Functions.mem_items_of_find? found)
  have works : ({} : Names).highestWork + c.namesNeeded callee ≤ Serial.last := by
    simpa using le
  have labels : ({} : Names).highestLabel + (Frame.moved callee .keep).length ≤ Serial.last := by
    simpa using Frame.length_moved_keep_le callee
  obtain ⟨frame, after, drawn⟩ := Frame.splice_total .keep found works labels
  obtain ⟨q, built, given⟩ := spliced_of_drawn assembled found drawn values
  obtain ⟨size, copy⟩ := Frame.copy_of_assemble labels callee_assembled works built
  have bound : max c.arguments.length callee.arity ≤ Serial.last := by
    unfold Call.namesNeeded at le
    omega
  refine ⟨q, _, _, _, given, size, copy, ?_⟩
  have fewer : values.length ≤ max c.arguments.length callee.arity := by omega
  have zipped := Variable.zip_firstInputs bound fewer
  have mirrors : Mirrors (c.owned callee) (Frame.mapping c callee .keep {}).var ∅ ∅ :=
    fun _ _ => by rw [Store.get_empty, Store.get_empty]
  have bound_inputs : ∀ v ∈ Variable.firstInputs (max c.arguments.length callee.arity),
      v ∈ c.owned callee :=
    fun v mem => List.mem_cons_of_mem _ (List.mem_append_left _ mem)
  have filled :=
    mirrors.assign (Frame.var_injOn_owned callee_assembled works) bound_inputs values
  rw [zipped] at filled
  exact fun v mem => filled v (Call.vars_subset_owned callee_assembled v mem)

namespace Evaluator

variable {ev : Evaluator} {c : Call} {values : List Nat}

theorem spliced_of_unknown {functions : Functions} (unknown : functions.find? c.function = none) :
    spliced functions c values = .error (.unknownFunction c.function) := by
  have run : (Frame.splice functions c .keep).run {} =
      (.error (.unknownFunction c.function), {}) := by
    unfold Frame.splice
    simp only [unknown]
    rfl
  unfold spliced
  rw [run]
  rfl

theorem entry_of_unknown (unknown : ev.functions.find? c.function = none) :
    ev.entry c values = .error (.unknownFunction c.function) := by
  unfold entry
  cases ev.strategy with
  | interpret => rw [direct, unknown]
  | inline => exact spliced_of_unknown unknown

theorem entry_of_interpret (strategy : ev.strategy = .interpret) {callee : Program}
    (found : ev.functions.find? c.function = some callee) :
    ev.entry c values = .ok ⟨callee, .ofInputs values, .result⟩ := by
  rw [entry, strategy, direct, found]

/-- Under either strategy, what runs for a call is a copy of the callee. -/
theorem exists_entry (assembled : ∀ f ∈ ev.functions.items, f.Assembled) {callee : Program}
    (found : ev.functions.find? c.function = some callee)
    (names : ev.strategy = .inline → c.namesNeeded callee ≤ Serial.last)
    (length : values.length = c.arguments.length) :
    ∃ q s var label, ev.entry c values = .ok ⟨q, s, var .result⟩ ∧
      q.size = callee.size ∧ callee.Copy q var label 0 none ∧
      Mirrors callee.vars var (.ofInputs values) s := by
  cases strategy : ev.strategy with
  | interpret =>
    exact ⟨callee, .ofInputs values, id, id, entry_of_interpret strategy found, rfl, .refl callee,
      fun _ _ => rfl⟩
  | inline =>
    unfold entry
    rw [strategy]
    exact exists_spliced assembled found (names strategy) length

/-- What a splice for a call comes to: an error of the splice, or a program that is assembled
from its body, with the arguments in its slots. -/
theorem spliced_cases {functions : Functions} (assembled : ∀ f ∈ functions.items, f.Assembled)
    {callee : Program} (found : functions.find? c.function = some callee) :
    (∃ out, spliced functions c values = .error (.expand (.names out))) ∨
      ∃ q supply, Program.assemble ⟨callee.name, callee.name, .function⟩ 0
          (Frame.spliced c callee .keep {}).body supply = .ok q ∧
        spliced functions c values = .ok ⟨q,
          .assign ∅ ((Frame.spliced c callee .keep {}).inputs.zip values),
          (Frame.spliced c callee .keep {}).result⟩ := by
  cases drawn : (Frame.splice functions c .keep).run {} with
  | mk drafted supply =>
    cases drafted with
    | error cause =>
      obtain ⟨out, rfl⟩ := Frame.splice_runsOut found .keep {} cause supply drawn
      refine .inl ⟨out, ?_⟩
      unfold spliced
      rw [drawn]
      rfl
    | ok frame =>
      obtain ⟨q, built, given⟩ := spliced_of_drawn assembled found drawn values
      exact .inr ⟨q, supply, built, given⟩

/-- What runs for a call: a program of its own that makes the calls of the callee, under other
names perhaps, from a store that holds the arguments and nothing else. -/
structure Runs (callee : Program) (values : List Nat) (e : Entry) : Prop where
  assembled : e.program.Assembled
  calls : ∀ j ∈ e.program.instructions.toList, ∀ inner, j.op.call? = some inner →
    ∃ i ∈ callee.instructions.toList, ∃ own var, i.op.call? = some own ∧ inner = own.rename var
  store : ∃ slots : List Variable, e.store = .assign ∅ (slots.zip values)

/-- If something runs for a call then it runs for a callee. -/
theorem runs_of_entry (assembled : ∀ f ∈ ev.functions.items, f.Assembled) {e : Entry}
    (entered : ev.entry c values = .ok e) :
    ∃ callee, ev.functions.find? c.function = some callee ∧ Runs callee values e := by
  cases found : ev.functions.find? c.function with
  | none =>
    rw [entry_of_unknown found] at entered
    cases entered
  | some callee =>
    refine ⟨callee, rfl, ?_⟩
    have callee_assembled := assembled callee (Functions.mem_items_of_find? found)
    cases strategy : ev.strategy with
    | interpret =>
      rw [entry_of_interpret strategy found] at entered
      cases entered
      refine ⟨callee_assembled, fun i mem inner calls => ?_, _, rfl⟩
      exact ⟨i, mem, inner, id, calls, inner.rename_id.symm⟩
    | inline =>
      rw [entry, strategy] at entered
      obtain ⟨out, failed⟩ | ⟨q, supply, built, given⟩ := spliced_cases assembled found
      · cases entered.symm.trans failed
      · cases entered.symm.trans given
        refine ⟨⟨_, _, _, _, built⟩, fun j mem inner calls => ?_, _, rfl⟩
        obtain ⟨k, at_k⟩ := List.mem_iff_getElem?.1 mem
        rw [Array.getElem?_toList, Program.getElem?_of_assemble built] at at_k
        obtain ⟨b, at_b, rfl⟩ := Option.map_eq_some_iff.1 at_k
        obtain ⟨i, occurs, rfl⟩ := List.mem_map.1 (List.mem_of_getElem? at_b)
        obtain ⟨own, made, rfl⟩ :=
          Option.map_eq_some_iff.1 ((Operation.call?_rename _ _ i.op).symm.trans calls)
        exact ⟨i, occurs, own, _, made, rfl⟩

/-- A call with a callee is not entered only if there are no names to splice it. -/
theorem entry_eq_error (assembled : ∀ f ∈ ev.functions.items, f.Assembled) {cause : RunError}
    (failed : ev.entry c values = .error cause) :
    ev.functions.find? c.function = none ∧ cause = .unknownFunction c.function ∨
      ev.strategy = .inline ∧ ∃ out, cause = .expand (.names out) := by
  cases found : ev.functions.find? c.function with
  | none =>
    rw [entry_of_unknown found] at failed
    cases failed
    exact .inl ⟨rfl, rfl⟩
  | some callee =>
    cases strategy : ev.strategy with
    | interpret =>
      rw [entry_of_interpret strategy found] at failed
      cases failed
    | inline =>
      rw [entry, strategy] at failed
      obtain ⟨out, given⟩ | ⟨q, supply, -, given⟩ := spliced_cases assembled found
      · cases failed.symm.trans given
        exact .inr ⟨rfl, out, rfl⟩
      · cases failed.symm.trans given

end Evaluator

end SLanguage
