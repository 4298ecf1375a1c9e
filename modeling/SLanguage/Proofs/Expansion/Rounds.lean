import SLanguage.Proofs.Calls.Bounds
import SLanguage.Proofs.Expansion.Layout

/-! What a round keeps. The next generation makes the steps of a program block by block. In
between, the old variables have the same values in both, and the variables that are drawn
for an assignment are zero, which is what lets its block be passed again. -/

namespace SLanguage

theorem Names.Knows.mono {names after : Names} (le : names.highestWork ≤ after.highestWork)
    {v : Variable} (knows : names.Knows v) : after.Knows v :=
  fun n eq => Nat.le_trans (knows n eq) le

theorem Variable.isInput_workAt (n : Nat) : (workAt n).isInput = false := by
  unfold workAt
  cases Serial.ofNat? n <;> rfl

/-- What has been drawn is known afterwards. -/
theorem Names.Gives.knows {names after : Names} {n : Nat} (gives : names.Gives after n)
    {v : Variable} (mem : v ∈ Drafting.worksAfter names.highestWork n) : after.Knows v := by
  obtain ⟨n, rfl, -, le⟩ := gives.mem_worksAfter_iff.1 mem
  rintro _ ⟨⟩
  exact le

theorem Program.Assembled.knows_of_mem_vars {p : Program} (assembled : p.Assembled) {v : Variable}
    (mem : v ∈ p.vars) : p.names.Knows v := by
  rintro n rfl
  obtain eq | ⟨i, occurs, own⟩ := assembled.mem_vars_iff.1 mem
  · cases eq
  · exact assembled.work_le_highestWork occurs own

namespace Expansion

/-- What has been drawn for the block of an index. -/
def Layout.drawn (a : Layout) (k : Nat) : List Variable :=
  Drafting.worksAfter (a.names k).highestWork
    ((a.names (k + 1)).highestWork - (a.names k).highestWork)

/-- A program and its next generation between two steps of the program. -/
structure Aligned (p : Program) (a : Layout) (m m' : Machine) : Prop where
  inRange : m.InRange p
  bounded : m.store.Bounded
  next : m'.next? = m.next?.map a.start
  store : ∀ v, p.names.Knows v → m'.store.get v = m.store.get v
  clear : ∀ k i w, p.instructions[k]? = some i → i.op = .assignment w →
    ∀ z ∈ a.drawn k, m'.store.get z = 0

namespace Lays

variable {functions : Functions} {p q : Program} {a : Layout} (lays : Lays functions p q a)

include lays

theorem gives {k : Nat} {i : Instruction} (at_k : p.instructions[k]? = some i) :
    ∃ n, Lowering.Lowered functions (a.names k) i (a.block k) n ∧
      (a.names k).Gives (a.names (k + 1)) n ∧
      a.drawn k = Drafting.worksAfter (a.names k).highestWork n := by
  obtain ⟨n, lowered, gives⟩ := lays.lowered at_k
  refine ⟨n, lowered, gives, ?_⟩
  rw [Layout.drawn, gives.highest, Nat.add_sub_cancel_left]

/-- Blocks share nothing that they have drawn. -/
theorem drawn_disjoint {j k : Nat} (lt : j < k) (bound : k < p.size) {z : Variable}
    (first : z ∈ a.drawn j) (second : z ∈ a.drawn k) : False := by
  obtain ⟨i, at_j⟩ := Program.exists_instruction (Nat.lt_trans lt bound)
  obtain ⟨i', at_k⟩ := Program.exists_instruction bound
  obtain ⟨n, -, gives, eq⟩ := lays.gives at_j
  obtain ⟨n', -, gives', eq'⟩ := lays.gives at_k
  rw [eq] at first
  rw [eq'] at second
  have knows := (gives.knows first).mono (lays.highestWork_mono lt (Nat.le_of_lt bound))
  exact gives'.not_mem knows second

theorem not_mem_drawn {k : Nat} {i : Instruction} (at_k : p.instructions[k]? = some i)
    {v : Variable} (knows : p.names.Knows v) : v ∉ a.drawn k := by
  obtain ⟨n, -, gives, eq⟩ := lays.gives at_k
  rw [eq]
  have lt := (Array.getElem?_eq_some_iff.1 at_k).1
  exact gives.not_mem (lays.knows_of_le (Nat.le_of_lt lt) knows)

theorem aligned_start (inputs : List Int64) :
    Aligned p a (.ofInputs p inputs) (.ofInputs q inputs) where
  inRange := Machine.inRange_start _ _
  bounded := by
    refine Store.bounded_ofInputs fun n mem => ?_
    obtain ⟨input, -, rfl⟩ := List.mem_map.1 mem
    exact Store.natural_le_largest input
  next := by
    have size := lays.size_eq
    unfold Machine.ofInputs Machine.start
    by_cases empty : p.size = 0
    · rw [if_pos empty, if_pos (by rw [size, empty]; rfl)]
      rfl
    · obtain ⟨i, at_start⟩ := Program.exists_instruction (Nat.pos_of_ne_zero empty)
      obtain ⟨first, rest, eq, -⟩ := lays.exists_cons at_start
      obtain ⟨q', at_q, -⟩ := lays.holds at_start 0 first (by rw [eq]; rfl)
      have pos : 0 < q.size := (Array.getElem?_eq_some_iff.1 at_q).1
      rw [if_neg empty, if_neg (Nat.ne_of_gt pos)]
      rfl
  store _ _ := rfl
  clear k i w at_k op z mem := by
    obtain ⟨n, -, -, rfl⟩ := Drafting.mem_worksAfter.1 mem
    refine (Store.get_assign_of_not_mem fun bound => ?_).trans (Store.get_empty _)
    have isInput := Variable.isInput_of_mem_firstInputs bound
    rw [Variable.isInput_workAt] at isInput
    cases isInput

theorem mirrors {k : Nat} {i : Instruction} (at_k : p.instructions[k]? = some i)
    {m m' : Machine} (aligned : Aligned p a m m') : Mirrors i.vars id m.store m'.store :=
  fun v mem => aligned.store v (lays.knows at_k v mem)

/-- What a block has left as it was is still aligned. -/
theorem aligned_of_does {k : Nat} {i : Instruction} (at_k : p.instructions[k]? = some i)
    {m m' last : Machine} (aligned : Aligned p a m m') {n : Nat}
    (drawn : a.drawn k = Drafting.worksAfter (a.names k).highestWork n) {y : Yield}
    {after : Machine} (inRange : after.InRange p) (bounded : after.store.Bounded)
    (store : after.store = (i.reaction m.store y).store)
    (next : last.next? = after.next?.map a.start)
    (values : ∀ w ∉ Lowering.scratch i.op (a.names k) n,
      last.store.get w = (i.reaction m'.store y).store.get w) : Aligned p a after last where
  inRange := inRange
  bounded := bounded
  next := next
  store v knows := by
    have clean : v ∉ Lowering.scratch i.op (a.names k) n := fun mem =>
      lays.not_mem_drawn at_k knows (drawn ▸ Lowering.scratch_subset _ _ _ mem)
    have known : ∀ w ∈ v :: i.vars, p.names.Knows w :=
      List.forall_mem_cons.2 ⟨knows, lays.knows at_k⟩
    have mirrors : Mirrors (v :: i.vars) id m.store m'.store := fun w mem =>
      aligned.store w (known w mem)
    have same := Instruction.reaction_renamed (y := y) (j := i) rfl i.op.rename_id.symm rfl
      (fun _ _ _ _ eq => eq) (fun w mem => List.mem_cons_of_mem v mem) mirrors
    rw [values v clean, store]
    exact same.1 v (List.mem_cons_self ..)
  clear k' i' w at_k' op z mem := by
    have clean : z ∉ Lowering.scratch i.op (a.names k) n := by
      intro own
      have lt := (Array.getElem?_eq_some_iff.1 at_k).1
      have lt' := (Array.getElem?_eq_some_iff.1 at_k').1
      obtain less | rfl | more := Nat.lt_trichotomy k k'
      · exact lays.drawn_disjoint less lt' (drawn ▸ Lowering.scratch_subset _ _ _ own) mem
      · obtain rfl := Option.some.inj (at_k.symm.trans at_k')
        rw [op] at own
        cases own
      · exact lays.drawn_disjoint more lt mem (drawn ▸ Lowering.scratch_subset _ _ _ own)
    have other : i.subject ≠ z := by
      rintro rfl
      exact lays.not_mem_drawn at_k' (lays.knows at_k _ (List.mem_cons_self ..)) mem
    rw [values z clean, Instruction.get_reaction_of_ne other]
    exact aligned.clear k' i' w at_k' op z mem

end Lays

section Round

variable {ev : Evaluator} (interpret : ev.strategy = .interpret) {p q : Program} {a : Layout}
  (lays : Lays ev.functions p q a) (room : Nat)

include interpret lays

theorem Lays.simulates :
    Simulates (ev.answer room) (ev.answer room) p q ev.stepLimit (Aligned p a) where
  advances {m m' v} aligned made := by
    obtain ⟨k, i, e, next?, next, at_k, ran, followed, rfl⟩ := Machine.step_eq_some_iff.1 made
    obtain ⟨n, lowered, gives, drawn⟩ := lays.gives at_k
    obtain ⟨e', ran', y, rfl, rfl⟩ :=
      ((ev.isLocal_answer room).effect
        (lays.mirrors at_k aligned)).exists_pure ran
    have bounded : ∀ v ∈ i.vars, m'.store.get v ≤ Store.largest := by
      intro v mem
      rw [aligned.store v (lays.knows at_k v mem)]
      exact aligned.bounded v
    have clear : ∀ w, i.op = .assignment w →
        ∀ z ∈ Drafting.worksAfter (a.names k).highestWork n, m'.store.get z = 0 :=
      fun w op z mem => aligned.clear k i w at_k op z (drawn ▸ mem)
    have jump : (i.reaction m'.store y).jump = (i.reaction m.store y).jump :=
      (Instruction.reaction_renamed (y := y) rfl i.op.rename_id.symm rfl (fun _ _ _ _ eq => eq)
        (fun _ mem => mem) (lays.mirrors at_k aligned)).2.1
    have ends := lays.follow at_k followed
    rw [← jump] at ends
    obtain ⟨count, s', pos, passed, values⟩ := lowered.does interpret lays.callees lays.target
      (lays.holds at_k) gives (lays.knows_at at_k) bounded clear ran' ends
    have next' : m'.next? = some (a.start k) := by
      rw [aligned.next, next]
      rfl
    obtain ⟨last, next', rfl, stepsIn⟩ := passed m' next' rfl
    exact ⟨count, last, pos, stepsIn.steps, lays.aligned_of_does at_k aligned drawn
      (.step lays.source made)
      (Machine.bounded_of_step (Evaluator.bounded_answer lays.callees room) aligned.bounded made)
      rfl next' values⟩
  stalls {m m'} aligned unfinished := by
    cases next : m.next? with
    | none =>
      rw [Machine.step_of_halted next] at unfinished
      exact absurd unfinished (Attempt.pure_ne_stop _ none)
    | some k =>
      obtain ⟨i, at_k⟩ := Program.exists_instruction (aligned.inRange k next)
      obtain ⟨n, lowered, gives, drawn⟩ := lays.gives at_k
      have stopped : i.effect (ev.answer room) m.store = Attempt.stop none :=
        Machine.effect_of_step_unfinished lays.source next at_k unfinished
      have stopped' := ((ev.isLocal_answer room).effect
        (lays.mirrors at_k aligned)).stops stopped id
      rw [aligned.next, next]
      exact lowered.stalls interpret lays.callees lays.target (lays.holds at_k) gives
        (lays.knows_at at_k) stopped'

end Round

/-- What the runs of a program tell of the runs of a later generation. Where the program
halts, the later one halts with the same values, and where it has not halted within the
steps that its calls may take, the later one has not either. -/
structure Preserves (ev : Evaluator) (p q : Program) : Prop where
  names : p.names.highestWork ≤ q.names.highestWork
  halts : ∀ {inputs n last},
    (Machine.ofInputs p inputs).toHalt (ev.answerAt 0) p n = pure last →
      ∃ n' last', (Machine.ofInputs q inputs).toHalt (ev.answerAt 0) q n' = pure last' ∧
        ∀ v, p.names.Knows v → last'.store.get v = last.store.get v
  unfinished : ∀ {inputs n}, n ≤ ev.stepLimit →
    (Machine.ofInputs p inputs).toHalt (ev.answerAt 0) p n = .unfinished →
      (Machine.ofInputs q inputs).toHalt (ev.answerAt 0) q n = .unfinished

theorem Preserves.refl (ev : Evaluator) (p : Program) : Preserves ev p p where
  names := Nat.le_refl _
  halts {_ n last} halts := ⟨n, last, halts, fun _ _ => rfl⟩
  unfinished _ unfinished := unfinished

theorem Preserves.trans {ev : Evaluator} {p q r : Program} (first : Preserves ev p q)
    (second : Preserves ev q r) : Preserves ev p r where
  names := Nat.le_trans first.names second.names
  halts {inputs n last} halts := by
    obtain ⟨n', last', halts', values⟩ := first.halts halts
    obtain ⟨n'', last'', halts'', values'⟩ := second.halts halts'
    refine ⟨n'', last'', halts'', fun v knows => ?_⟩
    rw [values' v (knows.mono first.names), values v knows]
  unfinished le unfinished := second.unfinished le (first.unfinished le unfinished)

/-- A round preserves what runs come to. -/
theorem Lays.preserves {ev : Evaluator} (interpret : ev.strategy = .interpret) {p q : Program}
    {a : Layout} (lays : Lays ev.functions p q a) : Preserves ev p q where
  names := by
    have le := lays.highestWork_mono (Nat.zero_le p.size) (Nat.le_refl _)
    rw [lays.first] at le
    exact Nat.le_trans le lays.last
  halts {inputs n last} halts := by
    obtain ⟨n', last', steps, aligned, halted⟩ :=
      (lays.simulates interpret (ev.depthLimit - 0)).exists_steps (lays.aligned_start inputs) halts
    have next : last.next? = none := aligned.inRange.next_of_halted halted
    have halted' : (last'.step (ev.answerAt 0) q).run = some (.ok none) := by
      rw [Machine.step_of_halted (by rw [aligned.next, next]; rfl)]
      rfl
    exact ⟨n' + 1, last', Machine.toHalt_of_steps steps halted', aligned.store⟩
  unfinished {inputs n} le unfinished := by
    rw [Machine.toHalt_eq_unfinished_iff] at unfinished ⊢
    exact (lays.simulates interpret (ev.depthLimit - 0)).stalls_of_unfinished
      (lays.aligned_start inputs) le unfinished

end Expansion

end SLanguage
