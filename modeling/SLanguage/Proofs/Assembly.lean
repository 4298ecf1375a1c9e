import Mathlib.Tactic.ByContra
import SLanguage.Program.Basic
import SLanguage.Proofs.Outcomes

/-! What assembly guarantees. A program that was assembled files each label under the
one instruction that carries it, jumps only to numbered labels that are carried, declares
the variables that occur, and has a supply of names past all of them. Conversely a list
of instructions whose labels differ and whose jumps are answered is assembled. -/

namespace SLanguage.Program

/-- Programs come from assembly only, be they loaded, lowered or spliced. -/
def Assembled (p : Program) : Prop :=
  ∃ header degree instructions names, assemble header degree instructions names = .ok p

theorem getElem?_positions_insert (positions : Std.TreeMap Label Nat) (l l' : Label) (k : Nat) :
    (positions.insert l k)[l']? = if l = l' then some k else positions[l']? := by
  rw [Std.TreeMap.getElem?_insert]
  simp only [Std.LawfulEqCmp.compare_eq_iff_eq]

theorem isEmpty_iff {l : Label} : l.isEmpty = true ↔ l = .empty := by
  cases l <;> simp [Label.isEmpty]

/-- The label stands on an instruction of the list, so many places from its start. -/
def Carried (instructions : List Instruction) (l : Label) (k : Nat) : Prop :=
  l ≠ .empty ∧ ∃ i, instructions[k]? = some i ∧ i.label = l

theorem carried_cons {i : Instruction} {rest : List Instruction} {l : Label} {j : Nat} :
    Carried (i :: rest) l j ↔
      (j = 0 ∧ l ≠ .empty ∧ i.label = l) ∨ ∃ n, j = n + 1 ∧ Carried rest l n := by
  cases j with
  | zero => simp [Carried]
  | succ n => simp [Carried]

theorem getElem?_indexLabels {name : String} {instructions : List Instruction} {k : Nat}
    {positions filed : Std.TreeMap Label Nat}
    (h : indexLabels name instructions k positions = .ok filed) (l : Label) (j : Nat) :
    filed[l]? = some j ↔
      positions[l]? = some j ∨ ∃ n, j = k + n ∧ Carried instructions l n := by
  induction instructions generalizing k positions with
  | nil =>
    cases h
    simp [Carried]
  | cons i rest ih =>
    unfold indexLabels at h
    split at h
    · rename_i unlabelled
      have eq : i.label = .empty := isEmpty_iff.1 unlabelled
      rw [ih h]
      refine or_congr_right ⟨?_, ?_⟩
      · rintro ⟨n, rfl, carried⟩
        exact ⟨n + 1, by omega, carried_cons.2 (.inr ⟨n, rfl, carried⟩)⟩
      · rintro ⟨n, rfl, carried⟩
        obtain ⟨-, ne, same⟩ | ⟨m, rfl, carried⟩ := carried_cons.1 carried
        · exact absurd (same.symm.trans eq) ne
        · exact ⟨m, by omega, carried⟩
    · rename_i labelled
      split at h
      · cases h
      · rename_i fresh
        have free : positions[i.label]? = none := by
          rw [Std.TreeMap.contains_eq_isSome_getElem?] at fresh
          simpa using fresh
        rw [ih h, getElem?_positions_insert]
        by_cases eq : i.label = l
        · subst eq
          have ne : i.label ≠ .empty := fun eq => labelled (isEmpty_iff.2 eq)
          rw [if_pos rfl, free]
          constructor
          · rintro (eq | ⟨n, rfl, carried⟩)
            · cases eq
              exact .inr ⟨0, by omega, carried_cons.2 (.inl ⟨rfl, ne, rfl⟩)⟩
            · exact .inr ⟨n + 1, by omega, carried_cons.2 (.inr ⟨n, rfl, carried⟩)⟩
          · rintro (eq | ⟨n, rfl, carried⟩)
            · cases eq
            · obtain ⟨rfl, -, -⟩ | ⟨m, rfl, carried⟩ := carried_cons.1 carried
              · exact .inl rfl
              · exact .inr ⟨m, by omega, carried⟩
        · rw [if_neg eq]
          refine or_congr_right ⟨?_, ?_⟩
          · rintro ⟨n, rfl, carried⟩
            exact ⟨n + 1, by omega, carried_cons.2 (.inr ⟨n, rfl, carried⟩)⟩
          · rintro ⟨n, rfl, carried⟩
            obtain ⟨-, -, same⟩ | ⟨m, rfl, carried⟩ := carried_cons.1 carried
            · exact absurd same eq
            · exact ⟨m, by omega, carried⟩

theorem indexLabels_total (name : String) {instructions : List Instruction} (k : Nat)
    {positions : Std.TreeMap Label Nat}
    (distinct : instructions.Pairwise fun i j => i.label ≠ .empty → i.label ≠ j.label)
    (free : ∀ i ∈ instructions, i.label ≠ .empty → positions[i.label]? = none) :
    ∃ filed, indexLabels name instructions k positions = .ok filed := by
  induction instructions generalizing k positions with
  | nil => exact ⟨positions, rfl⟩
  | cons i rest ih =>
    obtain ⟨head, tail⟩ := List.pairwise_cons.1 distinct
    unfold indexLabels
    split
    · exact ih (k + 1) tail fun j mem => free j (List.mem_cons_of_mem _ mem)
    · rename_i labelled
      have ne : i.label ≠ .empty := fun eq => labelled (isEmpty_iff.2 eq)
      have fresh : positions.contains i.label = false := by
        rw [Std.TreeMap.contains_eq_isSome_getElem?, free i (List.mem_cons_self ..) ne]
        rfl
      rw [fresh]
      refine ih (k + 1) tail fun j mem named => ?_
      rw [getElem?_positions_insert, if_neg (head j mem ne)]
      exact free j (List.mem_cons_of_mem _ mem) named

theorem strayJump?_eq_none_iff {positions : Std.TreeMap Label Nat}
    {instructions : List Instruction} :
    strayJump? positions instructions = none ↔
      ∀ i ∈ instructions, ∀ n, i.target? = some (.numbered n) →
        ∃ k, positions[Label.numbered n]? = some k := by
  rw [strayJump?, List.findSome?_eq_none_iff]
  refine forall₂_congr fun i _ => ?_
  split
  · rename_i n target
    simp only [target, Option.some.injEq, Label.numbered.injEq, forall_eq']
    rw [Std.TreeMap.contains_eq_isSome_getElem?, ← Option.isSome_iff_exists]
    cases h : positions[Label.numbered n]? <;> simp
  · rename_i other
    simp only [true_iff]
    intro n target
    exact absurd target (other n)

@[simp] theorem length_numbered (instructions : List Instruction) :
    (numbered instructions).length = instructions.length := by
  simp [numbered]

theorem getElem?_numbered (instructions : List Instruction) (k : Nat) :
    (numbered instructions)[k]? = instructions[k]?.map fun i => { i with number := k + 1 } := by
  simp [numbered]

theorem carried_numbered {instructions : List Instruction} {l : Label} {k : Nat} :
    Carried (numbered instructions) l k ↔ Carried instructions l k := by
  simp [Carried, getElem?_numbered]

/-- Numbering is all that assembly does to the instructions. -/
theorem mem_numbered {instructions : List Instruction} {j : Instruction} :
    j ∈ numbered instructions ↔
      ∃ (k : Nat) (i : Instruction), instructions[k]? = some i ∧
        { i with number := k + 1 } = j := by
  simp only [List.mem_iff_getElem?, getElem?_numbered, Option.map_eq_some_iff]

theorem assemble_eq_ok {header : Header} {degree : Nat} {instructions : List Instruction}
    {names : Names} {p : Program} (h : assemble header degree instructions names = .ok p) :
    ∃ positions, indexLabels header.name (numbered instructions) 0 ∅ = .ok positions ∧
      strayJump? positions (numbered instructions) = none ∧
      p = {
        header, degree, positions
        instructions := (numbered instructions).toArray
        inputs := .ofList (((numbered instructions).flatMap Instruction.vars).filter
          Variable.isInput)
        works := .ofList (((numbered instructions).flatMap Instruction.vars).filter
          Variable.isWork)
        names := (numbered instructions).foldl Names.reserve names } := by
  unfold assemble at h
  cases filed : indexLabels header.name (numbered instructions) 0 ∅ with
  | error e => simp [filed, bind, Except.bind] at h
  | ok positions =>
    cases stray : strayJump? positions (numbered instructions) with
    | some jump => simp [filed, stray, bind, Except.bind, throw, throwThe, MonadExceptOf.throw] at h
    | none =>
      refine ⟨positions, rfl, stray, ?_⟩
      simpa [filed, stray, bind, Except.bind, pure, Except.pure, eq_comm] using h

theorem getElem?_of_assemble {header : Header} {degree : Nat} {instructions : List Instruction}
    {names : Names} {p : Program} (h : assemble header degree instructions names = .ok p)
    (k : Nat) :
    p.instructions[k]? = instructions[k]?.map fun i => { i with number := k + 1 } := by
  obtain ⟨positions, -, -, rfl⟩ := assemble_eq_ok h
  rw [← getElem?_numbered]
  simp

theorem size_of_assemble {header : Header} {degree : Nat} {instructions : List Instruction}
    {names : Names} {p : Program} (h : assemble header degree instructions names = .ok p) :
    p.size = instructions.length := by
  obtain ⟨positions, -, -, rfl⟩ := assemble_eq_ok h
  simp [size]

theorem assemble_total (header : Header) (degree : Nat) {instructions : List Instruction}
    (names : Names)
    (distinct : instructions.Pairwise fun i j => i.label ≠ .empty → i.label ≠ j.label)
    (answered : ∀ i ∈ instructions, ∀ n, i.target? = some (.numbered n) →
      ∃ k, Carried instructions (.numbered n) k) :
    ∃ p, assemble header degree instructions names = .ok p := by
  have apart : (numbered instructions).Pairwise
      fun i j => i.label ≠ .empty → i.label ≠ j.label := by
    rw [List.pairwise_iff_getElem] at distinct ⊢
    intro a b ha hb lt
    simpa [numbered] using distinct a b (by simpa using ha) (by simpa using hb) lt
  have free : ∀ i ∈ numbered instructions, i.label ≠ .empty →
      (∅ : Std.TreeMap Label Nat)[i.label]? = none := fun _ _ _ => Std.TreeMap.getElem?_emptyc
  obtain ⟨positions, filed⟩ := indexLabels_total header.name 0 apart free
  have stray : strayJump? positions (numbered instructions) = none := by
    refine strayJump?_eq_none_iff.2 fun j mem n target => ?_
    obtain ⟨k, i, found, rfl⟩ := mem_numbered.1 mem
    obtain ⟨m, carried⟩ := answered i (List.mem_of_getElem? found) n target
    exact ⟨m, (getElem?_indexLabels filed _ _).2 (.inr ⟨m, by omega, carried_numbered.2 carried⟩)⟩
  unfold assemble
  simp [filed, stray, bind, Except.bind, pure, Except.pure]

/-! The supply of names. -/

theorem highestWork_reserveLabel (names : Names) (l : Label) :
    (names.reserveLabel l).highestWork = names.highestWork := by
  cases l <;> rfl

theorem highestWork_reserveVariables_le {names : Names} {vars : List Variable} {bound : Nat} :
    (vars.foldl Names.reserveVariable names).highestWork ≤ bound ↔
      names.highestWork ≤ bound ∧ ∀ n, .work n ∈ vars → n.val ≤ bound := by
  induction vars generalizing names with
  | nil => simp
  | cons v vars ih =>
    rw [List.foldl_cons, ih]
    cases v with
    | result => simp [Names.reserveVariable]
    | input n => simp [Names.reserveVariable]
    | work m =>
      simp only [Names.reserveVariable, List.mem_cons, Variable.work.injEq]
      constructor
      · rintro ⟨le, below⟩
        refine ⟨by omega, ?_⟩
        rintro n (rfl | mem)
        · omega
        · exact below n mem
      · rintro ⟨le, below⟩
        have := below m (.inl rfl)
        exact ⟨by omega, fun n mem => below n (.inr mem)⟩

theorem highestWork_reserve_le {names : Names} {instructions : List Instruction} {bound : Nat} :
    (instructions.foldl Names.reserve names).highestWork ≤ bound ↔
      names.highestWork ≤ bound ∧
        ∀ i ∈ instructions, ∀ n, .work n ∈ i.vars → n.val ≤ bound := by
  induction instructions generalizing names with
  | nil => simp
  | cons i rest ih =>
    rw [List.foldl_cons, ih, Names.reserve, highestWork_reserveVariables_le,
      highestWork_reserveLabel, highestWork_reserveLabel]
    simp only [List.forall_mem_cons, and_assoc]

theorem highestLabel_reserveLabel_le {names : Names} {l : Label} {bound : Nat} :
    (names.reserveLabel l).highestLabel ≤ bound ↔
      names.highestLabel ≤ bound ∧ ∀ n, l = .numbered n → n.val ≤ bound := by
  cases l with
  | numbered m =>
    rw [Names.reserveLabel, Nat.max_le]
    simp
  | _ => simp [Names.reserveLabel]

theorem highestLabel_reserveVariables (names : Names) (vars : List Variable) :
    (vars.foldl Names.reserveVariable names).highestLabel = names.highestLabel := by
  induction vars generalizing names with
  | nil => rfl
  | cons v vars ih =>
    rw [List.foldl_cons, ih]
    cases v <;> rfl

theorem highestLabel_reserve_le {names : Names} {instructions : List Instruction} {bound : Nat} :
    (instructions.foldl Names.reserve names).highestLabel ≤ bound ↔
      names.highestLabel ≤ bound ∧ ∀ i ∈ instructions, ∀ n,
        i.label = .numbered n ∨ i.target? = some (.numbered n) → n.val ≤ bound := by
  induction instructions generalizing names with
  | nil => simp
  | cons i rest ih =>
    have target (n : Serial) :
        i.target?.getD .empty = .numbered n ↔ i.target? = some (.numbered n) := by
      cases i.target? <;> simp
    rw [List.foldl_cons, ih, Names.reserve, highestLabel_reserveVariables,
      highestLabel_reserveLabel_le, highestLabel_reserveLabel_le, List.forall_mem_cons]
    simp only [target, or_imp (a := i.label = _), forall_and (p := fun n => i.label = _ → _),
      and_assoc]

namespace Assembled

variable {p : Program}

theorem position?_eq_some_iff (h : p.Assembled) {l : Label} {k : Nat} :
    p.position? l = some k ↔ Carried p.instructions.toList l k := by
  obtain ⟨header, degree, instructions, names, h⟩ := h
  obtain ⟨positions, filed, -, rfl⟩ := assemble_eq_ok h
  rw [position?, getElem?_indexLabels filed]
  simp

theorem exists_position? (h : p.Assembled) {i : Instruction} (mem : i ∈ p.instructions.toList)
    {n : Serial} (target : i.target? = some (.numbered n)) :
    ∃ k, p.position? (.numbered n) = some k := by
  obtain ⟨header, degree, instructions, names, h⟩ := h
  obtain ⟨positions, filed, stray, rfl⟩ := assemble_eq_ok h
  exact strayJump?_eq_none_iff.1 stray i mem n target

theorem lt_size_of_position? (h : p.Assembled) {l : Label} {k : Nat}
    (found : p.position? l = some k) : k < p.size := by
  obtain ⟨-, i, at_k, -⟩ := h.position?_eq_some_iff.1 found
  simpa [size] using (List.getElem?_eq_some_iff.1 at_k).1

/-- A label stands in one place. -/
theorem carried_unique (h : p.Assembled) {l : Label} {j k : Nat}
    (first : Carried p.instructions.toList l j) (second : Carried p.instructions.toList l k) :
    j = k := by
  have first := h.position?_eq_some_iff.2 first
  rw [h.position?_eq_some_iff.2 second] at first
  exact (Option.some.inj first).symm

/-- No label is carried twice. -/
theorem distinct (h : p.Assembled) :
    p.instructions.toList.Pairwise fun i j => i.label ≠ .empty → i.label ≠ j.label := by
  rw [List.pairwise_iff_getElem]
  intro a b ha hb lt labelled same
  have first : Carried p.instructions.toList p.instructions.toList[a].label a :=
    ⟨labelled, _, List.getElem?_eq_getElem ha, rfl⟩
  have second : Carried p.instructions.toList p.instructions.toList[a].label b :=
    ⟨labelled, _, List.getElem?_eq_getElem hb, same.symm⟩
  exact absurd (h.carried_unique first second) (Nat.ne_of_lt lt)

theorem exists_position?_label (h : p.Assembled) {i : Instruction}
    (mem : i ∈ p.instructions.toList) (labelled : i.label ≠ .empty) :
    ∃ k, p.position? i.label = some k := by
  obtain ⟨k, at_k⟩ := List.mem_iff_getElem?.1 mem
  exact ⟨k, h.position?_eq_some_iff.2 ⟨labelled, i, at_k, rfl⟩⟩

theorem mem_inputs_iff (h : p.Assembled) {v : Variable} :
    v ∈ p.inputs ↔ v.isInput ∧ ∃ i ∈ p.instructions.toList, v ∈ i.vars := by
  obtain ⟨header, degree, instructions, names, h⟩ := h
  obtain ⟨positions, -, -, rfl⟩ := assemble_eq_ok h
  rw [Std.TreeSet.mem_ofList]
  simp [and_comm]

theorem mem_works_iff (h : p.Assembled) {v : Variable} :
    v ∈ p.works ↔ v.isWork ∧ ∃ i ∈ p.instructions.toList, v ∈ i.vars := by
  obtain ⟨header, degree, instructions, names, h⟩ := h
  obtain ⟨positions, -, -, rfl⟩ := assemble_eq_ok h
  rw [Std.TreeSet.mem_ofList]
  simp [and_comm]

/-- A program lists the result and what its instructions mention. -/
theorem mem_vars_iff (h : p.Assembled) {v : Variable} :
    v ∈ p.vars ↔ v = .result ∨ ∃ i ∈ p.instructions.toList, v ∈ i.vars := by
  unfold vars
  simp only [List.mem_cons, List.mem_append, Std.TreeSet.mem_toList, h.mem_inputs_iff,
    h.mem_works_iff, ← or_and_right]
  cases v <;> simp [Variable.isInput, Variable.isWork]

theorem work_le_highestWork (h : p.Assembled) {i : Instruction}
    (mem : i ∈ p.instructions.toList) {n : Serial} (occurs : .work n ∈ i.vars) :
    n.val ≤ p.names.highestWork := by
  obtain ⟨header, degree, instructions, names, h⟩ := h
  obtain ⟨positions, -, -, rfl⟩ := assemble_eq_ok h
  exact (highestWork_reserve_le.1 (Nat.le_refl _)).2 i mem n occurs

theorem label_le_highestLabel (h : p.Assembled) {i : Instruction}
    (mem : i ∈ p.instructions.toList) {n : Serial} (own : i.label = .numbered n) :
    n.val ≤ p.names.highestLabel := by
  obtain ⟨header, degree, instructions, names, h⟩ := h
  obtain ⟨positions, -, -, rfl⟩ := assemble_eq_ok h
  exact (highestLabel_reserve_le.1 (Nat.le_refl _)).2 i mem n (.inl own)

theorem serial_le_arity (h : p.Assembled) {s : Serial} (mem : .input s ∈ p.inputs) :
    s.val ≤ p.arity := by
  unfold arity
  cases top : p.inputs.max? with
  | none => exact absurd mem (Std.TreeSet.not_mem_of_isEmpty (Std.TreeSet.max?_eq_none_iff.1 top))
  | some v =>
    obtain ⟨mem_v, above⟩ := Std.TreeSet.max?_eq_some_iff_mem_and_forall.1 top
    have le := above _ mem
    have isInput := (h.mem_inputs_iff.1 mem_v).1
    cases v with
    | input n => exact Nat.isLE_compare.1 le
    | _ => cases isInput

theorem exists_serial_eq_arity (h : p.Assembled) :
    p.arity = 0 ∨ ∃ n, .input n ∈ p.inputs ∧ n.val = p.arity := by
  unfold arity
  cases top : p.inputs.max? with
  | none => exact .inl rfl
  | some v =>
    have mem := (Std.TreeSet.max?_eq_some_iff_mem_and_forall.1 top).1
    have isInput := (h.mem_inputs_iff.1 mem).1
    cases v with
    | input n => exact .inr ⟨n, mem, rfl⟩
    | _ => cases isInput

end Assembled

/-- Loading reads the records and assembles what they hold. -/
theorem load_eq_ok {header : Header} {records : List Record} {p : Program}
    (h : load header records = .ok p) :
    ∃ is, loadRecords records 0 = .ok is ∧ assemble header 0 is {} = .ok p := by
  unfold load at h
  split at h
  · cases h
  · exact bind_eq_ok.1 h

theorem assembled_of_load {header : Header} {records : List Record} {p : Program}
    (h : load header records = .ok p) : p.Assembled := by
  obtain ⟨is, -, assembled⟩ := load_eq_ok h
  exact ⟨header, 0, is, {}, assembled⟩

theorem assembled_of_ofDefinition {d : Definition} {role : Role} {p : Program}
    (h : ofDefinition d role = .ok p) : p.Assembled :=
  assembled_of_load h

/-! Definitions name no `EXIT` as the label of an instruction. -/

theorem ownLabel_ne_exit {r : Record} {l : Label} (h : r.ownLabel = .ok l) : l ≠ .exit := by
  unfold Record.ownLabel at h
  split at h
  · cases h
    exact Label.noConfusion
  · obtain ⟨label, -, h⟩ := bind_eq_ok.1 h
    split at h
    · cases h
    · rename_i inside
      cases h
      exact inside

/-- A record is read if each of its parts is, and its instruction has no place yet. -/
theorem instruction_eq_ok_iff {r : Record} {i : Instruction} :
    r.instruction = .ok i ↔ ∃ kind label subject op, Kind.ofName? r.name = some kind ∧
      r.ownLabel = .ok label ∧ r.parseSubject kind = .ok subject ∧ r.operation kind = .ok op ∧
      i = { subject, op, label } := by
  unfold Record.instruction
  cases Kind.ofName? r.name with
  | none => exact iff_of_false (fun h => nomatch h) fun ⟨_, _, _, _, h, _⟩ => nomatch h
  | some kind =>
    cases own : r.ownLabel <;> cases about : r.parseSubject kind <;> cases op : r.operation kind <;>
      simp [bind, Except.bind, pure, Except.pure, about, op, eq_comm]

theorem loadRecords_cons_eq_ok_iff {r : Record} {rest : List Record} {k : Nat}
    {is : List Instruction} : loadRecords (r :: rest) k = .ok is ↔
      ∃ i others, r.instruction = .ok i ∧ loadRecords rest (k + 1) = .ok others ∧
        is = { i with id := Instruction.idAt k } :: others := by
  cases read : r.instruction <;> cases later : loadRecords rest (k + 1) <;>
    simp [loadRecords, bind, Except.bind, pure, Except.pure, read, later, eq_comm]

/-- Loading gives every instruction the id for its place. -/
theorem getElem?_of_loadRecords {records : List Record} {k : Nat} {is : List Instruction}
    (h : loadRecords records k = .ok is) {n : Nat} {i : Instruction} (at_n : is[n]? = some i) :
    ∃ r read, records[n]? = some r ∧ r.instruction = .ok read ∧
      i = { read with id := Instruction.idAt (k + n) } := by
  induction records generalizing k n is with
  | nil =>
    cases h
    cases at_n
  | cons r rest ih =>
    obtain ⟨read, others, first, later, rfl⟩ := loadRecords_cons_eq_ok_iff.1 h
    cases n with
    | zero =>
      cases at_n
      exact ⟨r, read, rfl, first, rfl⟩
    | succ n =>
      obtain ⟨r', read', at_r, read_r, rfl⟩ := ih later at_n
      exact ⟨r', read', at_r, read_r, by rw [Nat.add_right_comm, Nat.add_assoc]⟩

/-- The instructions of a loaded program are those of its records, in their places. -/
theorem getElem?_of_load {header : Header} {records : List Record} {p : Program}
    (h : load header records = .ok p) {k : Nat} {i : Instruction}
    (at_k : p.instructions[k]? = some i) :
    ∃ r read, records[k]? = some r ∧ r.instruction = .ok read ∧
      i = { read with id := Instruction.idAt k, number := k + 1 } := by
  obtain ⟨is, loaded, assembled⟩ := load_eq_ok h
  obtain ⟨positions, -, -, rfl⟩ := assemble_eq_ok assembled
  rw [List.getElem?_toArray, getElem?_numbered] at at_k
  obtain ⟨j, at_j, rfl⟩ := Option.map_eq_some_iff.1 at_k
  obtain ⟨r, read, at_r, read_r, rfl⟩ := getElem?_of_loadRecords loaded at_j
  exact ⟨r, read, at_r, read_r, by rw [Nat.zero_add]⟩

theorem label_ne_exit_of_record {r : Record} {i : Instruction} (h : r.instruction = .ok i) :
    i.label ≠ .exit := by
  obtain ⟨kind, label, subject, op, -, own, -, -, rfl⟩ := instruction_eq_ok_iff.1 h
  exact ownLabel_ne_exit own

/-- Records give no instruction the label `EXIT`. -/
theorem label_ne_exit_of_load {header : Header} {records : List Record} {p : Program}
    (h : load header records = .ok p) : ∀ i ∈ p.instructions.toList, i.label ≠ .exit := by
  intro i mem
  obtain ⟨k, at_k⟩ := List.mem_iff_getElem?.1 mem
  obtain ⟨r, read, -, read_r, rfl⟩ := getElem?_of_load h (Array.getElem?_toList ▸ at_k)
  have inside : read.label ≠ .exit := label_ne_exit_of_record read_r
  exact inside

theorem label_ne_exit_of_ofDefinition {d : Definition} {role : Role} {p : Program}
    (h : ofDefinition d role = .ok p) : ∀ i ∈ p.instructions.toList, i.label ≠ .exit :=
  label_ne_exit_of_load h

theorem role_of_ofDefinition {d : Definition} {role : Role} {p : Program}
    (h : ofDefinition d role = .ok p) : p.header.role = role := by
  obtain ⟨is, -, assembled⟩ := load_eq_ok h
  obtain ⟨positions, -, -, rfl⟩ := assemble_eq_ok assembled
  rfl

end SLanguage.Program
