import SLanguage.Expansion.Basic
import SLanguage.Proofs.Lowering.Contract

/-! How a generation is laid out. The next generation of a program is its blocks in a row,
each drawn after the ones before it. Where an instruction leads to another one, the end of
its block leads to the start of the other block. -/

namespace SLanguage

theorem Frame.detached_eq {i j : Instruction} (same : detached i = detached j) :
    i.subject = j.subject ∧ i.op = j.op ∧ i.label = j.label := by
  simpa [detached] using same

namespace Expansion

/-- The block of the instruction of each index, and the names before it is drawn. -/
structure Layout where
  block : Nat → List Instruction
  names : Nat → Names

namespace Layout

/-- Where the block of an index starts. -/
def start (a : Layout) : Nat → Nat
  | 0 => 0
  | k + 1 => a.start k + (a.block k).length

/-- A block in front of others. -/
def cons (block : List Instruction) (names : Names) (a : Layout) : Layout where
  block
    | 0 => block
    | k + 1 => a.block k
  names
    | 0 => names
    | k + 1 => a.names k

theorem start_cons (block : List Instruction) (names : Names) (a : Layout) (k : Nat) :
    (cons block names a).start (k + 1) = block.length + a.start k := by
  induction k with
  | zero => exact Nat.add_comm ..
  | succ k ih =>
    rw [start, ih, Nat.add_assoc]
    rfl

/-- Every index of the blocks in a row is an index of one of them. -/
theorem exists_place (a : Layout) {n place : Nat} (lt : place < a.start n) :
    ∃ k j, k < n ∧ j < (a.block k).length ∧ place = a.start k + j := by
  induction n with
  | zero => exact absurd lt (Nat.not_lt_zero place)
  | succ n ih =>
    by_cases before : place < a.start n
    · obtain ⟨k, j, lt, inside, eq⟩ := ih before
      exact ⟨k, j, by omega, inside, eq⟩
    · rw [start] at lt
      exact ⟨n, place - a.start n, by omega, by omega, by omega⟩

/-- The second list is made of the blocks of the first. -/
structure Fits (functions : Functions) (a : Layout) (is js : List Instruction) : Prop where
  drawn : ∀ {k i}, is[k]? = some i →
    (Lowering.lower functions i).drawn (a.names k) = (.ok (a.block k), a.names (k + 1))
  code : ∀ {k j b}, k < is.length → (a.block k)[j]? = some b →
    ∃ q, js[a.start k + j]? = some q ∧ Frame.detached q = Frame.detached b
  length : js.length = a.start is.length

theorem Fits.cons {functions : Functions} {a : Layout} {i : Instruction}
    {is js block stamped : List Instruction} {names : Names} (fits : a.Fits functions is js)
    (first : (Lowering.lower functions i).drawn names = (.ok block, a.names 0))
    (same : stamped.map Frame.detached = block.map Frame.detached) :
    (Layout.cons block names a).Fits functions (i :: is) (stamped ++ js) where
  drawn {k i'} at_k := by
    cases k with
    | zero =>
      cases at_k
      exact first
    | succ k => exact fits.drawn at_k
  code {k j b} lt at_j := by
    have length : stamped.length = block.length := by
      rw [← List.length_map Frame.detached, same, List.length_map]
    cases k with
    | zero =>
      have place : ((stamped ++ js).map Frame.detached)[j]? = some (Frame.detached b) := by
        rw [List.map_append, same, List.getElem?_append_left, List.getElem?_map]
        · exact congrArg (Option.map Frame.detached) at_j
        · rw [List.length_map]
          exact (List.getElem?_eq_some_iff.1 at_j).1
      rw [List.getElem?_map] at place
      obtain ⟨q, at_q, eq⟩ := Option.map_eq_some_iff.1 place
      exact ⟨q, by rw [start, Nat.zero_add, at_q], eq⟩
    | succ k =>
      obtain ⟨q, at_q, eq⟩ := fits.code (Nat.lt_of_succ_lt_succ lt) at_j
      refine ⟨q, ?_, eq⟩
      rw [start_cons, Nat.add_assoc, ← length, List.getElem?_append_right (Nat.le_add_right ..),
        Nat.add_sub_cancel_left, at_q]
  length := by
    rw [List.length_cons, start_cons, List.length_append, fits.length,
      ← List.length_map Frame.detached, same, List.length_map]

end Layout

theorem detached_stamp (origin nextId : Nat) (block : List Instruction) :
    (stamp origin nextId block).map Frame.detached = block.map Frame.detached := by
  refine List.ext_getElem? fun k => ?_
  rw [List.getElem?_map, List.getElem?_map, stamp, List.getElem?_mapIdx]
  cases block[k]? <;> rfl

/-- An instruction is lowered to its block, up to its place, also where it is basic. -/
theorem lowerAll_cons_eq_ok {functions : Functions} {i : Instruction}
    {rest js : List Instruction} {nextId : Nat} {names after : Names}
    (h : (lowerAll functions (i :: rest) nextId).drawn names = (.ok js, after)) :
    ∃ block mid stamped nextId' js', (Lowering.lower functions i).drawn names = (.ok block, mid) ∧
      (lowerAll functions rest nextId').drawn mid = (.ok js', after) ∧
      js = stamped ++ js' ∧ stamped.map Frame.detached = block.map Frame.detached := by
  rw [lowerAll] at h
  split at h
  · rename_i basic
    obtain ⟨js', mid, others, h⟩ := Drafting.drawn_bind_eq_ok.1 h
    cases h
    refine ⟨[i], names, [i], nextId, js', ?_, others, rfl, rfl⟩
    unfold Lowering.lower
    unfold Instruction.isBasic Instruction.kind at basic
    cases op : i.op <;> rw [op] at basic <;> first | rfl | cases basic
  · obtain ⟨block, mid, lowered, h⟩ := Drafting.drawn_bind_eq_ok.1 h
    obtain ⟨js', last, others, h⟩ := Drafting.drawn_bind_eq_ok.1 h
    cases h
    exact ⟨block, mid, _, _, js', lowered, others, rfl, detached_stamp ..⟩

theorem exists_layout {functions : Functions} {is js : List Instruction} {nextId : Nat}
    {names after : Names} (h : (lowerAll functions is nextId).drawn names = (.ok js, after)) :
    ∃ a : Layout, a.Fits functions is js ∧ a.names 0 = names ∧ a.names is.length = after := by
  induction is generalizing nextId names js with
  | nil =>
    cases h
    exact ⟨⟨fun _ => [], fun _ => after⟩, ⟨fun at_k => (nomatch at_k), fun lt => (nomatch lt), rfl⟩,
      rfl, rfl⟩
  | cons i rest ih =>
    obtain ⟨block, mid, stamped, nextId', js', first, others, rfl, same⟩ := lowerAll_cons_eq_ok h
    obtain ⟨a, fits, start, last⟩ := ih others
    exact ⟨a.cons block names, fits.cons (start ▸ first) same, rfl, last⟩

theorem Layout.Fits.numbered {functions : Functions} {a : Layout} {is js : List Instruction}
    (fits : a.Fits functions is js) : a.Fits functions is (Program.numbered js) where
  drawn := fits.drawn
  code {k j b} lt at_j := by
    obtain ⟨q, at_q, same⟩ := fits.code lt at_j
    rw [Program.getElem?_numbered, at_q]
    exact ⟨_, rfl, same⟩
  length := by rw [Program.length_numbered, fits.length]

/-- The second program is the next generation of the first, laid out like this. -/
structure Lays (functions : Functions) (p q : Program) (a : Layout) : Prop where
  callees : ∀ f ∈ functions.items, f.Assembled
  source : p.Assembled
  target : q.Assembled
  inside : ∀ i ∈ p.instructions.toList, i.label ≠ .exit
  fits : a.Fits functions p.instructions.toList q.instructions.toList
  first : a.names 0 = p.names
  last : (a.names p.size).highestWork ≤ q.names.highestWork

/-- A generation is formed from what its instructions are lowered to. -/
theorem nextGeneration_eq_ok {functions : Functions} {p q : Program} {nextId : Nat}
    (h : nextGeneration functions p nextId = .ok q) :
    ∃ js after,
      (lowerAll functions p.instructions.toList nextId).drawn p.names = (.ok js, after) ∧
        Program.assemble p.header (p.degree + 1) js after = .ok q := by
  unfold nextGeneration at h
  cases run : (lowerAll functions p.instructions.toList nextId).run p.names with
  | mk drafted after =>
    rw [run] at h
    cases drafted with
    | error cause => cases h
    | ok js =>
      change (Program.assemble p.header (p.degree + 1) js after).mapError _ = .ok q at h
      cases built : Program.assemble p.header (p.degree + 1) js after with
      | error cause =>
        rw [built] at h
        cases h
      | ok q' =>
        rw [built] at h
        cases h
        exact ⟨js, after, run, built⟩

theorem exists_lays {functions : Functions} (assembled : ∀ f ∈ functions.items, f.Assembled)
    {p q : Program} (source : p.Assembled) (inside : ∀ i ∈ p.instructions.toList, i.label ≠ .exit)
    {nextId : Nat} (h : nextGeneration functions p nextId = .ok q) :
    ∃ a, Lays functions p q a := by
  obtain ⟨js, after, drawn, built⟩ := nextGeneration_eq_ok h
  obtain ⟨a, fits, first, last⟩ := exists_layout drawn
  obtain ⟨positions, -, -, rfl⟩ := Program.assemble_eq_ok built
  refine ⟨a, assembled, source, ⟨_, _, _, _, built⟩, inside, fits.numbered, first, ?_⟩
  rw [Program.size, ← Array.length_toList, last]
  exact (Program.highestWork_reserve_le.1 (Nat.le_refl _)).1

namespace Lays

variable {functions : Functions} {p q : Program} {a : Layout} (lays : Lays functions p q a)

include lays

theorem size_eq : q.size = a.start p.size := by
  have length := lays.fits.length
  rwa [Array.length_toList, Array.length_toList] at length

section Instruction

variable {k : Nat} {i : Instruction} (at_k : p.instructions[k]? = some i)

include at_k

theorem lowered : ∃ n, Lowering.Lowered functions (a.names k) i (a.block k) n ∧
    (a.names k).Gives (a.names (k + 1)) n := by
  have at_k : p.instructions.toList[k]? = some i := Array.getElem?_toList.trans at_k
  exact Lowering.lower_eq_ok (fun _ => lays.callees)
    (fun _ => lays.inside i (List.mem_of_getElem? at_k)) (lays.fits.drawn at_k)

theorem holds : q.Holds (a.start k) (a.block k) := by
  intro j b at_j
  obtain ⟨lt, -⟩ := Array.getElem?_eq_some_iff.1 at_k
  obtain ⟨q', at_q, same⟩ := lays.fits.code (by rwa [Array.length_toList]) at_j
  rw [Array.getElem?_toList] at at_q
  obtain ⟨subject, op, label⟩ := Frame.detached_eq same
  exact ⟨q', at_q, subject, op, fun _ => label⟩

theorem exists_of_block {b : Instruction} (mem : b ∈ a.block k) :
    ∃ b' ∈ q.instructions.toList, Frame.detached b' = Frame.detached b := by
  obtain ⟨lt, -⟩ := Array.getElem?_eq_some_iff.1 at_k
  obtain ⟨j, at_j⟩ := List.mem_iff_getElem?.1 mem
  obtain ⟨b', at_b, same⟩ := lays.fits.code (by rwa [Array.length_toList]) at_j
  exact ⟨b', List.mem_of_getElem? at_b, same⟩

/-- The block begins with the label of its instruction. -/
theorem exists_cons : ∃ first rest, a.block k = first :: rest ∧
    (i.label ≠ .empty → first.label = i.label) := by
  obtain ⟨n, lowered, -⟩ := lays.lowered at_k
  exact lowered.exists_cons

theorem length_block_pos : 0 < (a.block k).length := by
  obtain ⟨first, rest, eq, -⟩ := lays.exists_cons at_k
  rw [eq]
  exact Nat.succ_pos _

end Instruction

theorem highestWork_mono {j k : Nat} (le : j ≤ k) (bound : k ≤ p.size) :
    (a.names j).highestWork ≤ (a.names k).highestWork := by
  induction le with
  | refl => exact Nat.le_refl _
  | @step k le ih =>
    obtain ⟨i, at_k⟩ := Program.exists_instruction bound
    obtain ⟨n, -, gives⟩ := lays.lowered at_k
    refine Nat.le_trans (ih (Nat.le_of_succ_le bound)) ?_
    rw [Nat.succ_eq_add_one, gives.highest]
    exact Nat.le_add_right ..

theorem knows_of_le {k : Nat} (bound : k ≤ p.size) {v : Variable} (knows : p.names.Knows v) :
    (a.names k).Knows v := by
  intro n eq
  have le := lays.highestWork_mono (Nat.zero_le k) bound
  rw [lays.first] at le
  exact Nat.le_trans (knows n eq) le

theorem knows {k : Nat} {i : Instruction} (at_k : p.instructions[k]? = some i) :
    ∀ v ∈ i.vars, p.names.Knows v := by
  rintro v occurs n rfl
  exact lays.source.work_le_highestWork
    (List.mem_of_getElem? (Array.getElem?_toList.trans at_k)) occurs

theorem knows_at {k : Nat} {i : Instruction} (at_k : p.instructions[k]? = some i) :
    ∀ v ∈ i.vars, (a.names k).Knows v := fun v mem =>
  lays.knows_of_le (Nat.le_of_lt (Array.getElem?_eq_some_iff.1 at_k).1) (lays.knows at_k v mem)

/-- Every instruction of the next generation stands in a block, up to its place. -/
theorem exists_block {b : Instruction} (mem : b ∈ q.instructions.toList) :
    ∃ k i, p.instructions[k]? = some i ∧
      ∃ b' ∈ a.block k, Frame.detached b = Frame.detached b' := by
  obtain ⟨place, at_place⟩ := List.mem_iff_getElem?.1 mem
  rw [Array.getElem?_toList] at at_place
  have lt : place < a.start p.size := by
    rw [← lays.size_eq]
    exact (Array.getElem?_eq_some_iff.1 at_place).1
  obtain ⟨k, j, bound, inside, rfl⟩ := a.exists_place lt
  obtain ⟨i, at_k⟩ := Program.exists_instruction bound
  have at_j : (a.block k)[j]? = some (a.block k)[j] := List.getElem?_eq_getElem inside
  obtain ⟨b', at_b, same⟩ := lays.fits.code (by rwa [Array.length_toList]) at_j
  rw [Array.getElem?_toList, at_place] at at_b
  cases at_b
  exact ⟨k, i, at_k, _, List.getElem_mem inside, same⟩

/-- No generation carries `EXIT`. -/
theorem label_ne_exit : ∀ i ∈ q.instructions.toList, i.label ≠ .exit := by
  intro b mem
  obtain ⟨k, i, at_k, b', inside, same⟩ := lays.exists_block mem
  obtain ⟨n, lowered, -⟩ := lays.lowered at_k
  rw [(Frame.detached_eq same).2.2]
  exact lowered.label_ne_exit lays.callees
    (lays.inside i (List.mem_of_getElem? (Array.getElem?_toList.trans at_k))) b' inside

/-- Jumps and falls lead from the end of a block to the start of another. -/
theorem follow {k : Nat} {i : Instruction} (at_k : p.instructions[k]? = some i) {l : Label}
    {next? : Option Nat} (followed : p.follow k l = .ok next?) :
    q.follow (a.start k + ((a.block k).length - 1)) l = .ok (next?.map a.start) := by
  obtain ⟨lt, -⟩ := Array.getElem?_eq_some_iff.1 at_k
  have pos := lays.length_block_pos at_k
  have after : a.start k + ((a.block k).length - 1) + 1 = a.start (k + 1) := by
    rw [Layout.start]
    omega
  cases l with
  | empty =>
    by_cases more : k + 1 < p.size
    · rw [Program.follow_empty more] at followed
      cases followed
      obtain ⟨next, at_next⟩ := Program.exists_instruction more
      obtain ⟨first, rest, eq, -⟩ := lays.exists_cons at_next
      obtain ⟨q', at_q, -⟩ := lays.holds at_next 0 first (by rw [eq]; rfl)
      have bound := (Array.getElem?_eq_some_iff.1 at_q).1
      rw [Program.follow_empty (by rw [after]; exact bound), after]
      rfl
    · rw [Program.follow, if_neg more] at followed
      cases followed
      have size := lays.size_eq
      have end_k : p.size = k + 1 := by
        have := (show k < p.size from lt)
        omega
      rw [end_k] at size
      rw [Program.follow, if_neg (by omega)]
      rfl
  | exit =>
    cases followed
    rfl
  | numbered n =>
    obtain ⟨j, found, rfl⟩ := Program.follow_numbered_eq_ok.1 followed
    obtain ⟨-, target, at_j, own⟩ := lays.source.position?_eq_some_iff.1 found
    rw [Array.getElem?_toList] at at_j
    obtain ⟨first, rest, eq, carries⟩ := lays.exists_cons at_j
    have label : first.label = .numbered n := by
      rw [carries (own ▸ Label.noConfusion), own]
    exact (lays.holds at_j).leads lays.target (j := 0) (by rw [eq]; rfl) label _

end Lays

end Expansion

end SLanguage
