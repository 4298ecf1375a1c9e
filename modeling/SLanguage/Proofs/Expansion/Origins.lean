import SLanguage.Proofs.Expansion.Ancestry

/-! Where origins end. An expansion numbers what is new from the length of its arena on, so
that origins lead down to smaller ids as long as the ids in use lie within the arena. This is
so for a program as loaded, but not for a later generation that is expanded once more: there
new instructions take the ids of old ones, and an instruction may become its own origin. -/

namespace SLanguage

/-- The instructions lie within the arena that the program starts with, and their origins are
older than they are. Ids have 32 bits. -/
def Program.Rooted (p : Program) : Prop :=
  ∀ i ∈ p.instructions.toList, i.id < (Expansion.file #[] p).size ∧ i.id ≤ Instruction.lastId ∧
    ∀ o, i.origin? = some o → o < i.id

namespace Expansion

section Filing

variable {is : List Instruction} {arena : Array Instruction}

theorem size_foldl_le (few : arena.size ≤ Instruction.lastId + 1)
    (ids : ∀ i ∈ is, i.id ≤ Instruction.lastId) :
    (is.foldl fileNext arena).size ≤ Instruction.lastId + 1 := by
  by_contra more
  have at_last := Array.getElem?_eq_getElem (Nat.lt_of_not_le more)
  obtain old | ⟨-, mem, id⟩ := old_or_filed at_last
  · have lt := (Array.getElem?_eq_some_iff.1 old).1
    omega
  · have le := ids _ mem
    omega

/-- Instructions that are counted from the end of the arena on are filed, up to the last id. -/
theorem size_foldl_counted {n : Nat} (size : arena.size = min n (Instruction.lastId + 1))
    (ids : ∀ k i, is[k]? = some i → i.id = Instruction.idAt (n + k)) :
    (is.foldl fileNext arena).size = min (n + is.length) (Instruction.lastId + 1) := by
  induction is generalizing arena n with
  | nil => exact size
  | cons i is ih =>
    have place (k : Nat) : n + 1 + k = n + (k + 1) := by omega
    rw [List.foldl_cons, ih (size_fileNext size (ids 0 i rfl)), List.length_cons, place]
    intro k j at_k
    rw [ids (k + 1) j at_k, place]

end Filing

/-- The links of the arena lead down, and those of the generations into the arena. -/
structure Descending (e : Expansion) : Prop where
  few : e.arena.size ≤ Instruction.lastId + 1
  arena : ∀ k (a : Instruction), e.arena[k]? = some a → a.id = k ∧ ∀ o, a.origin? = some o → o < k
  inside : ∀ d p, e.generation? d = some p → ∀ i ∈ p.instructions.toList,
    i.id < e.arena.size ∧ ∀ o, i.origin? = some o → o < e.arena.size

theorem Descending.base {p : Program} (rooted : p.Rooted) : (base p).Descending where
  few := by
    change (file #[] p).size ≤ _
    rw [file_eq]
    exact size_foldl_le (Nat.zero_le _) fun i mem => (rooted i mem).2.1
  arena k a at_k := by
    change (file #[] p)[k]? = some a at at_k
    rw [file_eq] at at_k
    obtain old | ⟨-, mem, rfl⟩ := old_or_filed at_k
    · cases old
    · exact ⟨rfl, (rooted a mem).2.2⟩
  inside d q at_d i mem := by
    cases d with
    | zero =>
      cases at_d
      obtain ⟨lt, -, older⟩ := rooted i mem
      exact ⟨lt, fun o origin => Nat.lt_trans (older o origin) lt⟩
    | succ d => cases at_d

/-- A round lowers what lies in the arena, so that what is new is younger than its origin. -/
theorem Descending.advance {functions : Functions} {e e' : Expansion}
    (descending : e.Descending) (h : e.advance functions = .ok e') : e'.Descending := by
  obtain ⟨p, next, rfl⟩ := advance_eq_ok h
  obtain ⟨n', handsOn⟩ := handsOn_nextGeneration next
  have before := descending.inside _ _ (generation?_topDegree e)
  have few := descending.few
  have size := handsOn.size_foldl (fun i mem => (before i mem).1) (by omega)
  have grows := size_le_foldl p.instructions.toList e.arena
  rw [← file_eq] at size grows
  have current : ∀ i ∈ p.instructions.toList, i.id < (file e.arena p).size ∧
      ∀ o, i.origin? = some o → o < e.arena.size := by
    intro i mem
    obtain ⟨j, occurs, -, same⟩ | ⟨m, -, lt, id, j, occurs, -, origin⟩ :=
      handsOn.carried_or_made i mem
    · obtain ⟨lt, inside⟩ := before j occurs
      exact ⟨same.id_eq ▸ Nat.lt_of_lt_of_le lt grows, same.origin_eq ▸ inside⟩
    · unfold Instruction.idAt at id
      refine ⟨by omega, fun o eq => ?_⟩
      cases origin.symm.trans eq
      exact (before j occurs).1
  refine ⟨size ▸ Nat.min_le_right .., fun k a at_k => ?_, fun d q at_d i mem => ?_⟩
  · change (file e.arena p)[k]? = some a at at_k
    rw [file_eq] at at_k
    obtain old | ⟨le, mem, rfl⟩ := old_or_filed at_k
    · exact descending.arena k a old
    · exact ⟨rfl, fun o origin => Nat.lt_of_lt_of_le ((current a mem).2 o origin) le⟩
  · by_cases last : d = e.topDegree + 1
    · subst last
      have pushed : (e.later.push p)[e.later.size]? = some p := Array.getElem?_push_size
      obtain rfl := Option.some.inj (pushed.symm.trans at_d)
      obtain ⟨lt, inside⟩ := current i mem
      exact ⟨lt, fun o origin => Nat.lt_of_lt_of_le (inside o origin) grows⟩
    · have le := le_topDegree_of_generation? at_d
      rw [topDegree, Array.size_push] at le
      rw [generation?_push (by unfold topDegree at last ⊢; omega)] at at_d
      obtain ⟨lt, inside⟩ := descending.inside d q at_d i mem
      exact ⟨Nat.lt_of_lt_of_le lt grows,
        fun o origin => Nat.lt_of_lt_of_le (inside o origin) grows⟩

/-- The way up from a link into the arena. Ids fall at each step. -/
theorem Descending.exists_leads {e : Expansion} (descending : e.Descending) {o : Nat}
    (lt : o < e.arena.size) : ∃ chain, e.Leads (some o) chain ∧ chain.length ≤ o + 1 ∧
      (chain.map Instruction.id).Pairwise (· > ·) ∧ ∀ a ∈ chain, a.id ≤ o := by
  induction o using Nat.strong_induction_on with
  | _ o ih =>
    have at_o := Array.getElem?_eq_getElem lt
    obtain ⟨id, below⟩ := descending.arena o _ at_o
    have found : e.instruction? o = some e.arena[o] := by
      rw [instruction?, at_o]
      exact Option.filter_some_pos (beq_iff_eq.2 id)
    cases origin : e.arena[o].origin? with
    | none =>
      have leads : e.Leads e.arena[o].origin? [] := origin.symm ▸ .root
      exact ⟨[e.arena[o]], .up found leads, Nat.succ_le_succ (Nat.zero_le o),
        List.pairwise_singleton .., List.forall_mem_singleton.2 (Nat.le_of_eq id)⟩
    | some o' =>
      have less := below o' origin
      obtain ⟨chain, leads, short, falls, bound⟩ := ih o' less (Nat.lt_trans less lt)
      refine ⟨e.arena[o] :: chain, .up found (origin ▸ leads), ?_, ?_, ?_⟩
      · exact Nat.succ_le_succ (Nat.le_trans short less)
      · refine List.pairwise_cons.2 ⟨fun x mem => ?_, falls⟩
        obtain ⟨a, occurs, rfl⟩ := List.mem_map.1 mem
        rw [id]
        exact Nat.lt_of_le_of_lt (bound a occurs) less
      · exact List.forall_mem_cons.2 ⟨Nat.le_of_eq id,
          fun a occurs => Nat.le_trans (bound a occurs) (Nat.le_of_lt less)⟩

theorem rooted_of_load {header : Header} {records : List Record} {p : Program}
    (loaded : Program.load header records = .ok p) : p.Rooted := by
  have counted : ∀ k i, p.instructions.toList[k]? = some i →
      i.id = Instruction.idAt k ∧ i.origin? = none := by
    intro k i at_k
    rw [Array.getElem?_toList] at at_k
    obtain ⟨r, read, -, read_r, rfl⟩ := Program.getElem?_of_load loaded at_k
    obtain ⟨kind, label, subject, op, -, -, -, -, rfl⟩ := Program.instruction_eq_ok_iff.1 read_r
    exact ⟨rfl, rfl⟩
  have size : (file #[] p).size = min p.instructions.toList.length (Instruction.lastId + 1) := by
    rw [file_eq, size_foldl_counted (n := 0) rfl, Nat.zero_add]
    intro k i at_k
    rw [Nat.zero_add]
    exact (counted k i at_k).1
  intro i mem
  obtain ⟨k, at_k⟩ := List.mem_iff_getElem?.1 mem
  obtain ⟨id, root⟩ := counted k i at_k
  have lt := (List.getElem?_eq_some_iff.1 at_k).1
  unfold Instruction.idAt at id
  exact ⟨by omega, by omega, fun o origin => nomatch root.symm.trans origin⟩

/-- Instructions that share the first id and have no origins. -/
theorem rooted_of_unplaced {p : Program}
    (unplaced : ∀ i ∈ p.instructions.toList, i.id = 0 ∧ i.origin? = none) : p.Rooted := by
  intro i mem
  obtain ⟨id, root⟩ := unplaced i mem
  refine ⟨?_, by omega, fun o origin => nomatch root.symm.trans origin⟩
  rw [file_eq]
  cases listed : p.instructions.toList with
  | nil =>
    rw [listed] at mem
    cases mem
  | cons first rest =>
    have own := (unplaced first (listed ▸ List.mem_cons_self ..)).1
    have pushed : fileNext #[] first = #[first] := if_pos own
    rw [List.foldl_cons, pushed, id]
    exact size_le_foldl rest #[first]

/-- The way up ends. In an expansion of a program within its arena, such as one that has been
loaded or put together from instructions without a place, every instruction of every degree has
a chain of ancestors that ends. Ids fall along it, so that it has no cycle. -/
theorem ancestry_ends :
    (∀ header records p, Program.load header records = .ok p → p.Rooted) ∧
    (∀ p : Program, (∀ i ∈ p.instructions.toList, i.id = 0 ∧ i.origin? = none) → p.Rooted) ∧
    ∀ (functions : Functions) (p : Program) (e : Expansion), p.Rooted →
      (ofProgram functions p).run = some (.ok e) →
      ∀ d q, e.generation? d = some q → ∀ i ∈ q.instructions.toList,
        e.Leads i.origin? (e.ancestry i) ∧
          ((e.ancestry i).map Instruction.id).Pairwise (· > ·) := by
  refine ⟨fun _ _ _ loaded => rooted_of_load loaded, fun _ => rooted_of_unplaced, ?_⟩
  intro functions p e rooted expanded d q at_d i mem
  obtain ⟨descending, -⟩ := grow_induction
    (fun _ _ descending advanced => Descending.advance descending advanced)
    (Descending.base rooted) expanded
  obtain ⟨-, inside⟩ := descending.inside d q at_d i mem
  unfold ancestry
  cases origin : i.origin? with
  | none =>
    rw [climb_eq .root (Nat.zero_le _)]
    exact ⟨.root, .nil⟩
  | some o =>
    have lt := inside o origin
    obtain ⟨chain, leads, short, falls, -⟩ := descending.exists_leads lt
    rw [climb_eq leads (Nat.le_trans short lt)]
    exact ⟨leads, falls⟩

theorem ancestry_ends_assigningTwo : ∃ e q i, (ofProgram ∅ assigningTwo).run = some (.ok e) ∧
    e.generation? 2 = some q ∧ i ∈ q.instructions.toList ∧
      e.Leads i.origin? (e.ancestry i) ∧ (e.ancestry i).map Instruction.id = [1, 0] := by
  have grown : (((ofProgram ∅ assigningTwo).run.bind Except.toOption).bind fun e =>
      (e.generation? 2).bind fun q => q.instructions.toList.head?.map fun i =>
        (e.ancestry i).map Instruction.id) = some [1, 0] := by
    have rounds : roundLimit assigningTwo = 4294967297 + 1 := by decide
    rw [ofProgram, rounds]
    decide +kernel
  obtain ⟨e, expanded, grown⟩ := Option.bind_eq_some_iff.1 grown
  obtain ⟨q, at_two, grown⟩ := Option.bind_eq_some_iff.1 grown
  obtain ⟨i, first, ids⟩ := Option.map_eq_some_iff.1 grown
  have expanded := run_eq_of_toOption expanded
  have mem := List.mem_of_head? first
  have rooted : assigningTwo.Rooted := ancestry_ends.2.1 _ (by decide)
  exact ⟨e, q, i, expanded, at_two, mem,
    (ancestry_ends.2.2 ∅ _ e rooted expanded 2 q at_two i mem).1, ids⟩

/-- An instruction that is its own origin is climbed to without end. -/
theorem length_climb_of_own_origin {e : Expansion} {id : Nat} {a : Instruction}
    (found : e.instruction? id = some a) (own : a.origin? = some id) (links : Nat) :
    (e.climb links (some id)).length = links := by
  induction links with
  | zero => rfl
  | succ links ih =>
    rw [climb, found]
    change (a :: e.climb links a.origin?).length = links + 1
    rw [own, List.length_cons, ih]

/-- The first degree of an assignment has the ids 1 to 3. When it is expanded once more, the
loop that clears the variable gets the ids 0 and 1, and 1 as its origin. -/
theorem ancestry_loops_assigningTwo : ∃ e q e' q' i,
    Program.ofDefinition settingTwo .main = .ok assigningTwo ∧
      (ofProgram ∅ assigningTwo).run = some (.ok e) ∧ e.generation 1 = .ok q ∧
      (ofProgram ∅ q).run = some (.ok e') ∧ e'.generation 1 = .ok q' ∧
      i ∈ q'.instructions.toList ∧ e'.instruction? i.id = some i ∧ i.origin? = some i.id ∧
      ∀ links, (e'.climb links i.origin?).length = links := by
  have grown : (((ofProgram ∅ assigningTwo).run.bind Except.toOption).bind fun e =>
      (e.generation? 1).bind fun q => ((ofProgram ∅ q).run.bind Except.toOption).bind fun e' =>
        (e'.generation? 1).bind fun q' => q'.instructions[1]?.map fun i =>
          (e'.instruction? i.id == some i, i.origin? == some i.id)) = some (true, true) := by
    have rounds : roundLimit assigningTwo = 4294967297 + 1 := by decide
    rw [ofProgram, rounds]
    decide +kernel
  obtain ⟨e, expanded, grown⟩ := Option.bind_eq_some_iff.1 grown
  obtain ⟨q, at_one, grown⟩ := Option.bind_eq_some_iff.1 grown
  obtain ⟨e', expanded', grown⟩ := Option.bind_eq_some_iff.1 grown
  obtain ⟨q', at_one', grown⟩ := Option.bind_eq_some_iff.1 grown
  obtain ⟨i, second, facts⟩ := Option.map_eq_some_iff.1 grown
  obtain ⟨found, own⟩ := Prod.mk.inj facts
  have found := beq_iff_eq.1 found
  have own := beq_iff_eq.1 own
  refine ⟨e, q, e', q', i, ofDefinition_settingTwo, run_eq_of_toOption expanded,
    generation_eq_ok_iff.2 at_one, run_eq_of_toOption expanded', generation_eq_ok_iff.2 at_one',
    ?_, found, own, fun links => ?_⟩
  · exact List.mem_of_getElem? (Array.getElem?_toList.trans second)
  · rw [own, length_climb_of_own_origin found own]

end Expansion

end SLanguage
