import Mathlib.Data.List.GetD
import SLanguage.Proofs.Lowering.Calling

/-! Inputs that a program does not declare. Its instructions read no variables but those that it
lists, and neither do the calls in them, so machines that hold the same values there make the same
steps and show the same, whatever else they hold. -/

namespace SLanguage

namespace Variable

theorem getElem?_firstInputs {n : Nat} {s : Serial} (le : s.val ≤ n) :
    (firstInputs n)[s.val - 1]? = some (.input s) := by
  have pos := s.val_pos
  obtain ⟨d, rfl⟩ := Nat.exists_eq_add_of_le le
  have split : firstInputs (s.val + d) = firstInputs s.val ++
      ((List.range d).map (s.val + ·)).filterMap fun k => (Serial.ofNat? (k + 1)).map input := by
    rw [firstInputs, List.range_add, List.filterMap_append, firstInputs]
  have length := length_firstInputs s.val_le
  have last : inputAt s.val = .input s := by simp [inputAt]
  rw [split, List.getElem?_append_left (by omega), firstInputs_eq s.val_le, List.getElem?_map,
    List.getElem?_range (by omega), Option.map_some, Nat.sub_add_cancel pos, last]

end Variable

namespace Store

theorem get_assign_of_getElem? {s : Store} {keys : List Variable} {values : List Nat} {k : Nat}
    {v : Variable} (nodup : keys.Nodup) (at_k : keys[k]? = some v) :
    (s.assign (keys.zip values)).get v = values.getD k (s.get v) := by
  induction keys generalizing s values k with
  | nil => cases at_k
  | cons key keys ih =>
    obtain ⟨fresh, nodup⟩ := List.nodup_cons.1 nodup
    cases values with
    | nil => rfl
    | cons value values =>
      cases k with
      | zero =>
        cases at_k
        exact (get_assign_of_not_mem fresh).trans (get_set_self ..)
      | succ k =>
        have ne : key ≠ v := fun eq => fresh (eq ▸ List.mem_of_getElem? at_k)
        refine (ih nodup at_k).trans ?_
        rw [get_set_of_ne _ _ ne]
        rfl

theorem get_ofInputs_input (values : List Nat) (n : Serial) :
    (ofInputs values).get (.input n) = values.getD (n.val - 1) 0 := by
  have pos := n.val_pos
  by_cases le : n.val ≤ values.length
  · have written : (ofInputs values).get (.input n) = values.getD (n.val - 1) ((∅ : Store).get _) :=
      get_assign_of_getElem? (Variable.nodup_firstInputs _) (Variable.getElem?_firstInputs le)
    rwa [get_empty] at written
  · have outside : .input n ∉ Variable.firstInputs values.length := by
      intro mem
      obtain ⟨k, lt, eq⟩ := List.mem_filterMap.1 mem
      obtain ⟨s, at_k, same⟩ := Option.map_eq_some_iff.1 eq
      cases same
      have := Serial.ofNat?_eq_some_iff.1 at_k
      have := List.mem_range.1 lt
      omega
    rw [ofInputs, get_assign_of_not_mem outside, get_empty, List.getD_eq_default _ _ (by omega)]

theorem get_ofInputs_of_not_input (values : List Nat) {v : Variable} (other : v.isInput = false) :
    (ofInputs values).get v = 0 := by
  have outside : v ∉ Variable.firstInputs values.length := by
    intro mem
    rw [Variable.isInput_of_mem_firstInputs mem] at other
    cases other
  rw [ofInputs, get_assign_of_not_mem outside, get_empty]

end Store

/-- The inputs agree wherever the program declares one. Negative numbers count as 0, and so do
missing ones. -/
def Program.SameInputs (p : Program) (inputs inputs' : List Int64) : Prop :=
  ∀ n : Serial, .input n ∈ p.inputs →
    Store.natural (inputs.getD (n.val - 1) 0) = Store.natural (inputs'.getD (n.val - 1) 0)

namespace Program.SameInputs

variable {p : Program} {inputs inputs' : List Int64}

theorem zeros (p : Program) (inputs : List Int64) (n : Nat) :
    p.SameInputs inputs (inputs ++ List.replicate n 0) := by
  intro k _
  by_cases given : k.val - 1 < inputs.length
  · rw [List.getD_append _ _ _ _ given]
  · have missing : inputs.getD (k.val - 1) 0 = 0 := List.getD_eq_default _ _ (by omega)
    rw [missing, List.getD_append_right _ _ _ _ (by omega), List.getD_eq_getElem?_getD,
      List.getElem?_getD_replicate_default_eq]

theorem surplus (assembled : p.Assembled) (enough : p.arity ≤ inputs.length)
    (others : List Int64) : p.SameInputs inputs (inputs ++ others) := by
  intro n declared
  have pos := n.val_pos
  have le := assembled.serial_le_arity declared
  rw [List.getD_append _ _ _ _ (by omega)]

theorem mirrors (same : p.SameInputs inputs inputs') (assembled : p.Assembled) :
    Mirrors p.vars id (.ofInputs (inputs.map Store.natural))
      (.ofInputs (inputs'.map Store.natural)) := by
  intro v mem
  cases v with
  | input n =>
    obtain eq | occurs := assembled.mem_vars_iff.1 mem
    · cases eq
    · have equal := same n (assembled.mem_inputs_iff.2 ⟨rfl, occurs⟩)
      have zero : Store.natural 0 = 0 := rfl
      rw [id, Store.get_ofInputs_input, Store.get_ofInputs_input, ← zero, List.getD_map,
        List.getD_map, equal]
  | result => rw [id, Store.get_ofInputs_of_not_input _ rfl, Store.get_ofInputs_of_not_input _ rfl]
  | work n => rw [id, Store.get_ofInputs_of_not_input _ rfl, Store.get_ofInputs_of_not_input _ rfl]

end Program.SameInputs

/-- The machines are at the same place, have used the same cycles, and hold the same values of
these variables. -/
structure Machine.Akin (vars : List Variable) (m m' : Machine) : Prop where
  next : m'.next? = m.next?
  cycles : m'.cycles = m.cycles
  store : Mirrors vars id m.store m'.store

/-- Two steps that run the same instruction at the same cost and leave akin machines. -/
structure Visit.Akin (vars : List Variable) (v v' : Visit) : Prop where
  index : v'.index = v.index
  cost : v'.cost = v.cost
  after : v.after.Akin vars v'.after

namespace Machine.Akin

variable {p : Program} {m m' : Machine}

theorem ofInputs (assembled : p.Assembled) {inputs inputs' : List Int64}
    (same : p.SameInputs inputs inputs') :
    (Machine.ofInputs p inputs).Akin p.vars (.ofInputs p inputs') :=
  ⟨rfl, rfl, same.mirrors assembled⟩

theorem isRunning {vars : List Variable} (akin : m.Akin vars m') :
    m'.isRunning = m.isRunning :=
  congrArg Option.isSome akin.next

theorem listing {vars : List Variable} (akin : m.Akin vars m') :
    Machine.listing m'.store vars = Machine.listing m.store vars :=
  List.map_congr_left fun v mem => by rw [← akin.store v mem, id]

theorem result (akin : m.Akin p.vars m') : m'.store.result = m.store.result :=
  akin.store .result (List.mem_cons_self ..)

theorem snapshot (akin : m.Akin p.vars m') (current? : Option Nat) :
    m'.snapshot p current? = m.snapshot p current? := by
  simp only [Machine.snapshot, akin.next, akin.isRunning, akin.cycles, akin.result, akin.listing]

theorem outcome (akin : m.Akin p.vars m') : m'.outcome p = m.outcome p := by
  simp only [Machine.outcome, akin.cycles, akin.result, akin.listing]

/-- Akin machines fail alike, or leave akin machines. -/
theorem step {answering : Answering} (isLocal : answering.IsLocal) (assembled : p.Assembled)
    (akin : m.Akin p.vars m') :
    Attempt.Agrees (fun _ => False) (Option.Rel (Visit.Akin p.vars)) (m.step answering p)
      (m'.step answering p) := by
  cases next : m.next? with
  | none =>
    rw [step_of_halted next, step_of_halted (akin.next.trans next)]
    exact .of_pure .none
  | some k =>
    cases at_k : p.instructions[k]? with
    | none =>
      rw [step_of_no_instruction next at_k, step_of_no_instruction (akin.next.trans next) at_k]
      exact .of_pure .none
    | some i =>
      have listed := assembled.vars_subset at_k
      rw [step_of_instruction next at_k, step_of_instruction (akin.next.trans next) at_k]
      refine (isLocal.effect fun v mem => akin.store v (listed v mem)).bind ?_
      rintro _ _ ⟨y, rfl, rfl⟩
      obtain ⟨store, jump, cycles⟩ := Instruction.reaction_renamed (y := y) (j := i) rfl
        i.op.rename_id.symm rfl (fun _ _ _ _ eq => eq) listed akin.store
      rw [jump, cycles, akin.cycles, id]
      cases p.follow k (i.reaction m.store y).jump with
      | error e => exact .of_stop (some e)
      | ok next? => exact .of_pure (.some ⟨rfl, rfl, rfl, rfl, store⟩)

end Machine.Akin

end SLanguage
