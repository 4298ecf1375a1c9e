import SLanguage.Proofs.Calls.Answers
import SLanguage.Proofs.Lowering.Drafts
import SLanguage.Proofs.Machine.Simulation

/-! Calls that are lowered. The prologue leaves the store as it would be at the start of the
callee, under fresh names, whatever an earlier pass has left there. The body then makes the
steps of the callee, with one more level for the calls in it, and ends where the result is
copied. -/

namespace SLanguage

namespace Store

theorem get_assign_of_not_mem {s : Store} {keys : List Variable} {values : List Nat}
    {v : Variable} (outside : v ∉ keys) : (s.assign (keys.zip values)).get v = s.get v := by
  induction keys generalizing s values with
  | nil => rfl
  | cons key keys ih =>
    cases values with
    | nil => rfl
    | cons value values =>
      exact (ih (List.not_mem_of_not_mem_cons outside)).trans
        (get_set_of_ne _ _ (List.ne_of_not_mem_cons outside).symm)

theorem map_get_assign {s : Store} {keys : List Variable} {values : List Nat}
    (nodup : keys.Nodup) (length : keys.length = values.length) :
    keys.map (s.assign (keys.zip values)).get = values := by
  induction keys generalizing s values with
  | nil => exact (List.eq_nil_of_length_eq_zero length.symm).symm
  | cons key keys ih =>
    obtain ⟨fresh, nodup⟩ := List.nodup_cons.1 nodup
    cases values with
    | nil => cases length
    | cons value values =>
      have own : ((s.set key value).assign (keys.zip values)).get key = value := by
        rw [get_assign_of_not_mem fresh, get_set_self]
      exact congrArg₂ List.cons own (ih nodup (Nat.succ.inj length))

end Store

/-- A store comes to mirror another one when all variables are written. -/
theorem Mirrors.of_assign {vars : List Variable} {var : Variable → Variable}
    (injective : ∀ v ∈ vars, ∀ w ∈ vars, var v = var w → v = w) (s s' : Store) :
    Mirrors vars var s (s'.assign ((vars.map var).zip (vars.map s.get))) := by
  have written : ∀ keys ⊆ vars, ∀ s' : Store,
      Mirrors keys var s (s'.assign ((keys.map var).zip (keys.map s.get))) := by
    intro keys subset
    induction keys with
    | nil => exact fun s' v mem => nomatch mem
    | cons key keys ih =>
      intro s' v mem
      obtain ⟨own, others⟩ := List.cons_subset.1 subset
      by_cases later : v ∈ keys
      · exact ih others _ v later
      · obtain rfl := (List.mem_cons.1 mem).resolve_right later
        have outside : var v ∉ keys.map var := by
          intro mem
          obtain ⟨w, mem, eq⟩ := List.mem_map.1 mem
          rw [injective w (others mem) v own eq] at mem
          exact later mem
        exact (Store.get_assign_of_not_mem outside).trans (Store.get_set_self ..)
  exact written vars (List.Subset.refl vars) s'

/-- What the callee starts with: arguments in its first inputs and zero everywhere else. -/
theorem Call.map_get_owned {c : Call} {callee : Program} (assembled : callee.Assembled)
    (le : c.namesNeeded callee ≤ Serial.last) {values : List Nat}
    (length : values.length = c.arguments.length) :
    (c.owned callee).map (Store.ofInputs values).get =
      0 :: (values ++
          List.replicate (max c.arguments.length callee.arity - c.arguments.length) 0) ++
        List.replicate callee.works.size 0 := by
  unfold namesNeeded at le
  obtain ⟨d, more⟩ := Nat.exists_eq_add_of_le (Nat.le_max_left c.arguments.length callee.arity)
  have unbound {v : Variable} (outside : v ∉ Variable.firstInputs values.length) :
      (Store.ofInputs values).get v = 0 :=
    (Store.get_assign_of_not_mem outside).trans (Store.get_empty v)
  have result : (Store.ofInputs values).get .result = 0 :=
    unbound fun mem => Bool.noConfusion (Variable.isInput_of_mem_firstInputs mem)
  have inputs : (Variable.firstInputs (values.length + d)).map (Store.ofInputs values).get =
      values ++ List.replicate d 0 := by
    have nodup := Variable.nodup_firstInputs (values.length + d)
    have split : Variable.firstInputs (values.length + d) =
        Variable.firstInputs values.length ++
          (List.range d).map fun k => Variable.inputAt (values.length + k + 1) := by
      rw [Variable.firstInputs_eq (by omega), Variable.firstInputs_eq (by omega), List.range_add,
        List.map_append, List.map_map]
      rfl
    rw [split] at nodup ⊢
    obtain ⟨first, -, apart⟩ := List.nodup_append.1 nodup
    rw [List.map_append, List.map_map]
    congr 1
    · exact Store.map_get_assign first (Variable.length_firstInputs (by omega))
    · refine List.eq_replicate_iff.2 ⟨by simp, fun n mem => ?_⟩
      obtain ⟨k, lt, rfl⟩ := List.mem_map.1 mem
      exact unbound fun bound => apart _ bound _ (List.mem_map_of_mem lt) rfl
  have works : callee.works.toList.map (Store.ofInputs values).get =
      List.replicate callee.works.size 0 := by
    refine List.eq_replicate_iff.2 ⟨by rw [List.length_map, Std.TreeSet.length_toList],
      fun n mem => ?_⟩
    obtain ⟨v, own, rfl⟩ := List.mem_map.1 mem
    refine unbound fun bound => ?_
    have isInput := Variable.isInput_of_mem_firstInputs bound
    have isWork := (assembled.mem_works_iff.1 (Std.TreeSet.mem_toList.1 own)).1
    cases v with
    | input n => cases isWork
    | _ => cases isInput
  rw [owned, List.map_cons, List.map_append, result, works, more, ← length, inputs,
    Nat.add_sub_cancel_left]
  rfl

namespace Lowering

section Binding

variable {answering : Answering} {p : Program} {start limit : Nat} {s : Store}

theorem effect_bindInput (answering : Answering) (s : Store) (slot : Variable) (a : Argument) :
    (bindInput slot (some a)).effect answering s =
      (Evaluator.reading answering s a >>= fun y =>
        pure { store := s.set slot y.value, callCycles := y.cycles }) := by
  cases a <;> rfl

theorem bindInputs_nil (slots : List Variable) : bindInputs slots [] = slots.map zero := by
  induction slots with
  | nil => rfl
  | cons slot slots ih => exact congrArg (zero slot :: ·) ih

theorem exists_head {α : Type} (first : List α) {rest : List α} (more : rest ≠ []) :
    ∃ a, (first ++ rest)[0]? = some a := by
  cases first with
  | nil =>
    cases rest with
    | nil => exact absurd rfl more
    | cons a rest => exact ⟨a, rfl⟩
  | cons a first => exact ⟨a, rfl⟩

/-- The slots take the arguments in order, and zero where there are no more. -/
theorem passes_bindInputs (isLocal : answering.IsLocal) {slots : List Variable}
    {as : List Argument} {rest : List Instruction}
    (holds : p.Holds start (bindInputs slots as ++ rest)) (more : rest ≠ [])
    (length : as.length ≤ slots.length) (apart : ∀ v ∈ slots, v ∉ Argument.variablesOf as)
    {yields : List Yield} (read : Evaluator.arguments answering s as = pure yields) :
    ∃ n, Passes answering p anywhere n (some start) s (some (start + slots.length))
      (s.assign (slots.zip (yields.map Yield.value ++
        List.replicate (slots.length - as.length) 0))) := by
  induction slots generalizing start as yields s with
  | nil => exact ⟨0, .refl _ _⟩
  | cons slot slots ih =>
    have place : start + (slots.length + 1) = start + 1 + slots.length := by omega
    cases as with
    | nil =>
      obtain rfl := Attempt.pure_injective read
      obtain ⟨i, next⟩ := exists_head (bindInputs slots []) more
      have first := holds.anywhere.passes answering (j := 0) rfl
        (effect_zero answering slot (s := s)) (holds.falls next)
      obtain ⟨n, second⟩ := ih holds.tail (Nat.zero_le _)
        (fun _ _ mem => nomatch mem) (s := s.set slot 0)
        (show Evaluator.arguments answering _ [] = pure [] from rfl)
      rw [List.length_cons, place]
      exact ⟨_, first.trans second⟩
    | cons a as =>
      obtain ⟨y, yields, value, others, rfl⟩ := Evaluator.arguments_cons_eq_pure.1 read
      obtain ⟨i, next⟩ := exists_head (bindInputs slots as) more
      have bound : (bindInput slot (some a)).effect answering s =
          pure { store := s.set slot y.value, callCycles := y.cycles } := by
        rw [effect_bindInput, value]
        rfl
      have first := holds.anywhere.passes answering (j := 0) rfl bound (holds.falls next)
      have same : Mirrors (Argument.variablesOf as) id s (s.set slot y.value) := fun v mem =>
        Store.get_set_of_ne _ _ fun eq => apart slot (List.mem_cons_self ..)
          (List.mem_append_right _ (eq ▸ mem))
      obtain ⟨n, second⟩ := ih holds.tail (Nat.le_of_succ_le_succ length)
        (fun v mem occurs => apart v (List.mem_cons_of_mem _ mem) (List.mem_append_right _ occurs))
        ((isLocal.arguments same).symm.trans others)
      rw [List.length_cons, List.length_cons, place, Nat.add_sub_add_right]
      exact ⟨_, first.trans second⟩

theorem stalls_bindInputs (isLocal : answering.IsLocal) {slots : List Variable}
    {as : List Argument} {rest : List Instruction}
    (holds : p.Holds start (bindInputs slots as ++ rest)) (more : rest ≠ [])
    (length : as.length ≤ slots.length) (apart : ∀ v ∈ slots, v ∉ Argument.variablesOf as)
    (unfinished : Evaluator.arguments answering s as = .unfinished) :
    Stalls answering p limit (some start) s := by
  induction slots generalizing start as s with
  | nil =>
    obtain rfl := List.eq_nil_of_length_eq_zero (Nat.le_zero.1 length)
    exact absurd unfinished (Attempt.pure_ne_stop [] none)
  | cons slot slots ih =>
    cases as with
    | nil => exact absurd unfinished (Attempt.pure_ne_stop [] none)
    | cons a as =>
      rw [Evaluator.arguments_cons] at unfinished
      have ran := effect_bindInput answering s slot a
      obtain stopped | ⟨y, value, unfinished⟩ := Attempt.stop_of_bind none unfinished
      · rw [stopped, Attempt.stop_bind] at ran
        obtain ⟨q, at_start, subject, op, -⟩ := holds 0 _ rfl
        refine .of_instruction at_start ?_
        rw [Instruction.effect, subject, op]
        exact ran
      · rw [value, pure_bind] at ran
        obtain ⟨i, next⟩ := exists_head (bindInputs slots as) more
        have first := holds.anywhere.passes answering (j := 0) rfl ran (holds.falls next)
        have same : Mirrors (Argument.variablesOf as) id s (s.set slot y.value) := fun v mem =>
          Store.get_set_of_ne _ _ fun eq => apart slot (List.mem_cons_self ..)
            (List.mem_append_right _ (eq ▸ mem))
        refine .of_passes first (ih holds.tail (Nat.le_of_succ_le_succ length) ?_ ?_)
        · exact fun v mem occurs =>
            apart v (List.mem_cons_of_mem _ mem) (List.mem_append_right _ occurs)
        · rw [← isLocal.arguments same]
          exact Attempt.eq_stop_of_bind_pure none unfinished

theorem length_bindInputs {slots : List Variable} {as : List Argument} :
    (bindInputs slots as).length = slots.length := by
  induction slots generalizing as with
  | nil => rfl
  | cons slot slots ih => cases as <;> exact congrArg Nat.succ ih

end Binding

/-- A call that is lowered at an index of a program, with its callee. -/
structure Inlined (p : Program) (start : Nat) (v : Variable) (c : Call) (callee : Program)
    (names : Names) : Prop where
  program : p.Assembled
  assembled : callee.Assembled
  works : names.highestWork + c.namesNeeded callee ≤ Serial.last
  labels : (Frame.moved callee .redirect).length = 0 ∨
    names.highestLabel + (Frame.moved callee .redirect).length ≤ Serial.last
  holds : p.Holds start (callingBlock v c (Frame.spliced c callee .redirect names))

namespace Inlined

/-- The names that the call has drawn. -/
def fresh (c : Call) (callee : Program) (names : Names) : List Variable :=
  Drafting.worksAfter names.highestWork (c.namesNeeded callee)

abbrev map (c : Call) (callee : Program) (names : Names) : Renaming :=
  Frame.mapping c callee .redirect names

abbrev frame (c : Call) (callee : Program) (names : Names) : Frame :=
  Frame.spliced c callee .redirect names

/-- The copy of the result, on which the body ends. -/
def copyOut (v : Variable) (frame : Frame) : Instruction :=
  labelled (frame.endLabel?.getD .empty) (assign v frame.result)

variable {p : Program} {start : Nat} {v : Variable} {c : Call} {callee : Program} {names : Names}

theorem callingBlock_eq (v : Variable) (c : Call) (f : Frame) : callingBlock v c f =
    zero f.result :: (bindInputs f.inputs c.arguments ++
      (bindInputs f.works [] ++ (f.body ++ [copyOut v f]))) := by
  rw [callingBlock, bindInputs_nil]
  simp only [List.cons_append, List.append_assoc]
  rfl

theorem length_works : (frame c callee names).works.length = callee.works.size := by
  rw [frame, Frame.spliced, List.length_map, Std.TreeSet.length_toList]

theorem length_body : (frame c callee names).body.length = callee.size := by
  rw [frame, Frame.spliced, List.length_map, Array.length_toList]
  rfl

theorem getElem?_copyOut :
    ((frame c callee names).body ++ [copyOut v (frame c callee names)])[callee.size]? =
      some (copyOut v (frame c callee names)) := by
  rw [← length_body, List.getElem?_concat_length]

theorem label_of_nonempty (labels : (Frame.moved callee .redirect).length = 0 ∨
      names.highestLabel + (Frame.moved callee .redirect).length ≤ Serial.last)
    {l : Label} (mem : l ∈ callee.labels) (ne : l ≠ .empty) :
    ∃ n, (map c callee names).label l = .numbered n := by
  have moved : l ∈ Frame.moved callee .redirect := by
    refine List.mem_filter.2 ⟨mem, ?_⟩
    cases l with
    | empty => exact absurd rfl ne
    | _ => rfl
  obtain ⟨n, renamed, -⟩ := Frame.label_of_moved labels moved
  exact ⟨n, renamed⟩

/-- The label that ends the body, if anything jumps there. -/
theorem endLabel (labels : (Frame.moved callee .redirect).length = 0 ∨
      names.highestLabel + (Frame.moved callee .redirect).length ≤ Serial.last)
    (mem : .exit ∈ callee.labels) : ∃ n, (map c callee names).label .exit = .numbered n ∧
      (copyOut v (frame c callee names)).label = .numbered n := by
  obtain ⟨n, renamed⟩ := label_of_nonempty (c := c) labels mem Label.noConfusion
  refine ⟨n, renamed, ?_⟩
  change (((map c callee names).labels.lookup .exit).getD .empty) = _
  unfold Renaming.label at renamed
  cases found : (map c callee names).labels.lookup .exit with
  | none =>
    rw [found] at renamed
    cases renamed
  | some l =>
    rw [found] at renamed
    exact renamed

/-- Where the body ends. -/
abbrev exit (start : Nat) (c : Call) (callee : Program) : Nat :=
  start + c.namesNeeded callee + callee.size

/-- The callee and its copy in step, where it is entered with a store. -/
structure InStep (start : Nat) (c : Call) (callee : Program) (names : Names) (s : Store)
    (m m' : Machine) : Prop where
  inRange : m.InRange callee
  shadows : m.Shadows callee.vars (map c callee names).var (start + c.namesNeeded callee)
    (some (exit start c callee)) m'
  frame : ∀ w ∉ fresh c callee names, m'.store.get w = s.get w

/-- A machine that enters the body stands where the callee starts. -/
theorem inStep_start {s : Store} {arguments : List Nat} {s' : Store} {m' : Machine}
    (mirrors : Mirrors callee.vars (map c callee names).var (.ofInputs arguments) s')
    (frame : ∀ w ∉ fresh c callee names, s'.get w = s.get w)
    (next : m'.next? = some (start + c.namesNeeded callee)) (store : m'.store = s') :
    InStep start c callee names s (.start callee (.ofInputs arguments)) m' where
  inRange := Machine.inRange_start _ _
  shadows := by
    refine ⟨?_, store ▸ mirrors⟩
    unfold Machine.start
    rw [next]
    split
    · rename_i none
      simp [placed, none]
    · rfl
  frame := store ▸ frame

variable (inlined : Inlined p start v c callee names)

include inlined

theorem le_last : c.namesNeeded callee ≤ Serial.last :=
  Nat.le_trans (Nat.le_add_left ..) inlined.works

theorem length_inputs :
    (frame c callee names).inputs.length = max c.arguments.length callee.arity := by
  have le := inlined.le_last
  unfold Call.namesNeeded at le
  rw [frame, Frame.spliced, List.length_map, Variable.length_firstInputs (by omega)]

theorem arguments_le_inputs : c.arguments.length ≤ (frame c callee names).inputs.length :=
  Frame.arguments_le_inputs .redirect names inlined.le_last

theorem map_owned : (c.owned callee).map (map c callee names).var = fresh c callee names :=
  Frame.map_var_owned .redirect names inlined.assembled inlined.le_last

theorem slots_eq : (frame c callee names).result ::
    ((frame c callee names).inputs ++ (frame c callee names).works) = fresh c callee names := by
  rw [← inlined.map_owned, Call.owned, List.map_cons, List.map_append]
  rfl

theorem var_mem_fresh {u : Variable} (mem : u ∈ callee.vars) :
    (map c callee names).var u ∈ fresh c callee names :=
  Frame.var_mem_worksAfter .redirect names inlined.assembled inlined.le_last
    (Call.vars_subset_owned inlined.assembled u mem)

theorem length_block : (callingBlock v c (frame c callee names)).length =
    c.namesNeeded callee + callee.size + 1 := by
  rw [callingBlock_eq, List.length_cons, List.length_append, List.length_append,
    List.length_append, length_bindInputs, length_bindInputs, length_body, length_works,
    inlined.length_inputs, Call.namesNeeded, List.length_singleton]
  omega

theorem holds_inputs : p.Holds (start + 1)
    (bindInputs (frame c callee names).inputs c.arguments ++
      (bindInputs (frame c callee names).works [] ++
        ((frame c callee names).body ++ [copyOut v (frame c callee names)]))) := by
  have holds := inlined.holds
  rw [callingBlock_eq] at holds
  exact holds.tail

theorem holds_works : p.Holds (start + 1 + (frame c callee names).inputs.length)
    (bindInputs (frame c callee names).works [] ++
      ((frame c callee names).body ++ [copyOut v (frame c callee names)])) := by
  have tail := inlined.holds_inputs.append.2
  rwa [length_bindInputs] at tail

theorem place_body : start + 1 + (frame c callee names).inputs.length +
    (frame c callee names).works.length = start + c.namesNeeded callee := by
  rw [inlined.length_inputs, length_works, Call.namesNeeded]
  omega

theorem holds_body : p.Holds (start + c.namesNeeded callee)
    ((frame c callee names).body ++ [copyOut v (frame c callee names)]) := by
  have tail := inlined.holds_works.append.2
  rwa [length_bindInputs, inlined.place_body] at tail

section Prologue

variable {answering : Answering} (isLocal : answering.IsLocal)
  (outside : ∀ w ∈ c.vars, w ∉ fresh c callee names) {s : Store}

theorem passes_result (answering : Answering) (s : Store) :
    Passes answering p anywhere 1 (some start) s (some (start + 1))
      (s.set (frame c callee names).result 0) := by
  have holds := inlined.holds
  rw [callingBlock_eq, ← List.append_assoc, ← List.append_assoc] at holds
  obtain ⟨i, next⟩ := exists_head _ (List.cons_ne_nil _ [])
  exact holds.anywhere.passes answering (j := 0) rfl (effect_zero answering _) (holds.falls next)

include outside

theorem inputs_outside : ∀ w ∈ (frame c callee names).inputs,
    w ∉ Argument.variablesOf c.arguments := by
  intro w mem occurs
  refine outside w occurs ?_
  rw [← inlined.slots_eq]
  exact List.mem_cons_of_mem _ (List.mem_append_left _ mem)

include isLocal

/-- The slot of the result is no argument. -/
theorem arguments_set : Evaluator.arguments answering s c.arguments =
    Evaluator.arguments answering (s.set (frame c callee names).result 0) c.arguments := by
  refine isLocal.arguments fun w mem => Store.get_set_of_ne _ _ fun eq => outside w mem ?_
  rw [← inlined.slots_eq]
  exact eq ▸ List.mem_cons_self ..

/-- The callee is entered with the arguments, and with all else at zero. -/
theorem exists_prologue {yields : List Yield}
    (read : Evaluator.arguments answering s c.arguments = pure yields) :
    ∃ n s', Passes answering p anywhere n (some start) s (some (start + c.namesNeeded callee)) s' ∧
      Mirrors callee.vars (map c callee names).var (.ofInputs (yields.map Yield.value)) s' ∧
      ∀ w ∉ fresh c callee names, s'.get w = s.get w := by
  set s₁ := s.set (frame c callee names).result 0 with named₁
  have first := inlined.passes_result answering s
  obtain ⟨n₂, second⟩ := passes_bindInputs isLocal inlined.holds_inputs
    (by simp) inlined.arguments_le_inputs (inlined.inputs_outside outside)
    ((inlined.arguments_set isLocal outside).symm.trans read)
  rw [← named₁] at second
  set s₂ := s₁.assign _ with named₂
  obtain ⟨n₃, third⟩ := passes_bindInputs (s := s₂) isLocal inlined.holds_works
    (by simp) (Nat.zero_le _) (fun _ _ mem => nomatch mem)
    (show Evaluator.arguments answering s₂ [] = pure [] from rfl)
  rw [inlined.place_body] at third
  refine ⟨_, _, (first.trans second).trans third, ?_⟩
  have length : (yields.map Yield.value).length = c.arguments.length := by
    rw [List.length_map, Evaluator.length_of_arguments read]
  have written : s₂.assign ((frame c callee names).works.zip
        (([] : List Yield).map Yield.value ++
          List.replicate ((frame c callee names).works.length - ([] : List Argument).length) 0)) =
      s.assign (((c.owned callee).map (map c callee names).var).zip
        ((c.owned callee).map (Store.ofInputs (yields.map Yield.value)).get)) := by
    rw [Call.map_get_owned inlined.assembled inlined.le_last length, inlined.map_owned,
      ← inlined.slots_eq, List.cons_append, List.zip_cons_cons, List.zip_append, named₂, named₁,
      inlined.length_inputs, length_works]
    · exact List.foldl_append.symm
    · rw [inlined.length_inputs, List.length_append, length, List.length_replicate]
      omega
  rw [written]
  constructor
  · intro w mem
    exact Mirrors.of_assign (Frame.var_injOn_owned inlined.assembled inlined.works) _ s w
      (Call.vars_subset_owned inlined.assembled w mem)
  · intro w clean
    exact Store.get_assign_of_not_mem (inlined.map_owned ▸ clean)

end Prologue

theorem own_mem_labels {k : Nat} {i : Instruction} (at_k : callee.instructions[k]? = some i)
    (ne : i.label ≠ .empty) : i.label ∈ callee.labels :=
  Frame.mem_labels_iff.2 (.inl (inlined.assembled.exists_position?_label
    (List.mem_of_getElem? (Array.getElem?_toList.trans at_k)) ne))

/-- The body is a copy of the callee that goes on after it. -/
theorem copy : callee.Copy p (map c callee names).var (map c callee names).label
    (start + c.namesNeeded callee) (some (exit start c callee)) := by
  have holds := inlined.holds_body
  have at_body {k : Nat} {i : Instruction} (at_k : callee.instructions[k]? = some i) :
      ((frame c callee names).body ++ [copyOut v (frame c callee names)])[k]? =
        some (Frame.detached ((map c callee names).instruction i)) := by
    have lt : k < (frame c callee names).body.length := by
      rw [length_body]
      exact (Array.getElem?_eq_some_iff.1 at_k).1
    rw [List.getElem?_append_left lt, frame, Frame.spliced, List.getElem?_map,
      Array.getElem?_toList, at_k]
    rfl
  refine .of_code inlined.assembled inlined.program ?_ ?_ ?_ ?_ ?_ ?_
  · intro u mem_u w mem_w
    exact Frame.var_injOn_owned inlined.assembled inlined.works u
      (Call.vars_subset_owned inlined.assembled u mem_u) w
      (Call.vars_subset_owned inlined.assembled w mem_w)
  · exact Frame.label_of_not_moved (Frame.empty_not_mem_moved _)
  · intro k i at_k
    obtain ⟨q, at_q, subject, op, carries⟩ := holds k _ (at_body at_k)
    refine ⟨q, at_q, subject, op, fun ne => ?_⟩
    have own : (Frame.detached ((map c callee names).instruction i)).label =
        (map c callee names).label i.label :=
      (Frame.label_detached _ i).trans (if_neg fun absent => ne (Program.isEmpty_iff.1 absent))
    obtain ⟨n, renamed⟩ :=
      label_of_nonempty (c := c) inlined.labels (inlined.own_mem_labels at_k ne) ne
    rw [← own]
    exact carries (by rw [own, renamed]; exact Label.noConfusion)
  · intro k i n at_k own
    have mem := inlined.own_mem_labels at_k (own ▸ Label.noConfusion)
    rw [own] at mem
    exact label_of_nonempty inlined.labels mem Label.noConfusion
  · intro k i at_k target
    have jumps : callee.jumpsTo .exit = true :=
      Program.jumpsTo_iff.2 ⟨i, List.mem_of_getElem? (Array.getElem?_toList.trans at_k), target⟩
    obtain ⟨n, renamed, own⟩ := endLabel (v := v) (c := c) inlined.labels
      (Frame.mem_labels_iff.2 (.inr ⟨rfl, jumps⟩))
    rw [renamed]
    exact holds.leads inlined.program getElem?_copyOut own _
  · intro k last
    have next := holds.falls (j := k) (last ▸ getElem?_copyOut)
    rwa [last] at next

section Body

variable {ev : Evaluator} (interpret : ev.strategy = .interpret)
  (assembled : ∀ f ∈ ev.functions.items, f.Assembled) (room : Nat) {s : Store}

include interpret assembled

theorem callsAgree (m : Machine) : m.CallsAgree ev.TooDeep (ev.answer room)
    (ev.answer (room + 1)) callee (map c callee names).var := by
  intro k i inner s' next at_k calls mirrors
  refine ev.answer_succ interpret assembled room fun w mem => mirrors w ?_
  exact inlined.assembled.vars_subset at_k w (Call.vars_subset calls w mem)

theorem simulates : Simulates (ev.answer room) (ev.answer (room + 1)) callee p ev.stepLimit
    (InStep start c callee names s) where
  advances {m m' v} inStep made := by
    obtain ⟨k, -, -, -, next, -⟩ := Machine.step_eq_some_iff.1 made
    obtain ⟨_, made', u, v', eq, rfl, shadows⟩ :=
      (inlined.copy.step_agrees inlined.assembled inStep.shadows next (inStep.inRange k next)
        (inlined.callsAgree interpret assembled room m)).exists_pure made
    cases eq
    refine ⟨1, v'.after, Nat.one_pos, .step (congrArg ExceptT.run made') (.refl _), ?_⟩
    exact {
      inRange := .step inlined.assembled made
      shadows := shadows.machine
      frame := fun w clean => (shadows.frame w fun u mem eq =>
        clean (eq ▸ inlined.var_mem_fresh mem)).trans (inStep.frame w clean) }
  stalls {m m'} inStep unfinished := by
    cases next : m.next? with
    | none =>
      rw [Machine.step_of_halted next] at unfinished
      exact absurd unfinished (Attempt.pure_ne_stop _ none)
    | some k =>
      intro m₂ next₂ store₂ n _
      have shadows : m.Shadows callee.vars (map c callee names).var
          (start + c.namesNeeded callee) (some (exit start c callee)) m₂ :=
        ⟨next₂.trans inStep.shadows.next, store₂ ▸ inStep.shadows.store⟩
      have stopped : m.step (ev.answer room) callee = Attempt.stop none := unfinished
      refine Machine.drive_of_unfinished ?_ n
      exact (inlined.copy.step_agrees inlined.assembled shadows next (inStep.inRange k next)
        (inlined.callsAgree interpret assembled room m)).stops stopped fun ⟨f, eq⟩ => nomatch eq

variable (outside : ∀ w ∈ c.vars, w ∉ fresh c callee names)
  (found : ev.functions.find? c.function = some callee)

include outside found

/-- Lowering a call leaves what the call gives. -/
theorem does {y : Yield} {next? : Option Nat}
    (answered : ev.answer (room + 1) c s = pure y)
    (ends : p.follow (exit start c callee) .empty = .ok next?) :
    Does (ev.answer (room + 1)) p anywhere start s next? (fresh c callee names)
      (s.set v y.value) := by
  rw [Evaluator.answer_of_found interpret room found] at answered
  obtain ⟨yields, read, answered⟩ := Attempt.run_bind_eq_ok.1 (congrArg ExceptT.run answered)
  obtain ⟨m, halts, answered⟩ := Attempt.run_bind_eq_ok.1 answered
  obtain rfl := Attempt.pure_injective answered
  obtain ⟨_, read', rfl⟩ :=
    (ev.arguments_succ interpret assembled room s c.arguments).exists_pure read
  obtain ⟨n₁, s₁, entered, mirrors, frame₁⟩ :=
    inlined.exists_prologue (ev.isLocal_answer (room + 1)) outside read'
  have before : InStep start c callee names s _ ⟨some _, s₁, 0⟩ :=
    inStep_start mirrors frame₁ rfl rfl
  obtain ⟨n₂, m', steps, inStep, halted⟩ :=
    (inlined.simulates interpret assembled room).exists_steps before halts
  have next := inStep.inRange.next_of_halted halted
  have body := Passes.of_steps steps
  rw [inStep.shadows.next, next, placed] at body
  have last := inlined.holds_body.anywhere.passes (ev.answer (room + 1)) (s := m'.store)
    getElem?_copyOut ((effect_labelled _ _ _).trans (effect_assign _ _ _)) ends
  refine ⟨_, _, ?_, (entered.trans body).trans last, fun w clean => ?_⟩
  · omega
  · have result : m'.store.get (frame c callee names).result = m.store.get .result :=
      inStep.shadows.store .result (List.mem_cons_self ..)
    rw [Store.get_set, Store.get_set, result, inStep.frame w clean]

/-- A call that is not answered in time keeps its block from ending in time. -/
theorem stalls (unfinished : ev.answer (room + 1) c s = .unfinished) :
    Stalls (ev.answer (room + 1)) p ev.stepLimit (some start) s := by
  have isLocal := ev.isLocal_answer (room + 1)
  have agrees := ev.arguments_succ interpret assembled room s c.arguments
  rw [Evaluator.answer_of_found interpret room found] at unfinished
  obtain stopped | ⟨yields, read, unfinished⟩ := Attempt.stop_of_bind none unfinished
  · have stopped' := agrees.stops stopped fun ⟨f, eq⟩ => nomatch eq
    refine .of_passes (inlined.passes_result _ s) ?_
    refine stalls_bindInputs isLocal inlined.holds_inputs (by simp) inlined.arguments_le_inputs
      (inlined.inputs_outside outside) ?_
    exact (inlined.arguments_set isLocal outside).symm.trans stopped'
  · obtain ⟨_, read', rfl⟩ := agrees.exists_pure read
    obtain ⟨n₁, s₁, entered, mirrors, frame₁⟩ := inlined.exists_prologue isLocal outside read'
    have never : Machine.drive (ev.answer room) callee ev.stepLimit
        (.start callee (.ofInputs (yields.map Yield.value))) = none :=
      Machine.toHalt_eq_unfinished_iff.1 (Attempt.eq_stop_of_bind_pure none unfinished)
    refine .of_passes entered fun m' next store n le => ?_
    refine (inlined.simulates interpret assembled room).stalls_of_unfinished
      (inStep_start mirrors frame₁ next store) le ?_
    cases early : Machine.drive (ev.answer room) callee n
        (.start callee (.ofInputs (yields.map Yield.value))) with
    | none => rfl
    | some r =>
      rw [Machine.drive_of_le le early] at never
      cases never

end Body

end Inlined

end Lowering

end SLanguage
