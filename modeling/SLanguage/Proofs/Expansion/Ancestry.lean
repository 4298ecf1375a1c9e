import Mathlib.Algebra.Group.Nat.Defs
import SLanguage.Proofs.Expansion.Meaning
import SLanguage.Proofs.Expansion.Numbering

/-! The arena as a forest. As long as the ids last, every instruction is found under its id as
it stood in the degree that created it, and its origin is an instruction of the degree before
with a smaller id. So the way up from an instruction takes no more steps than degrees, and
ends in the program as loaded. -/

namespace SLanguage

namespace Expansion

/-- The arena as it stands once a degree is formed. -/
def arenaAt (e : Expansion) : Nat → Array Instruction
  | 0 => file #[] e.loaded
  | d + 1 =>
    match e.later[d]? with
    | some q => file (e.arenaAt d) q
    | none => e.arenaAt d

/-- How many instructions have been created once a degree is formed: those that were loaded,
and in each later degree all but those that were carried over. -/
def createdBy (e : Expansion) : Nat → Nat
  | 0 => e.loaded.size
  | d + 1 =>
    match e.generation? d, e.generation? (d + 1) with
    | some p, some q => e.createdBy d + (q.size - (p.size - p.countSynthetic))
    | _, _ => e.createdBy d

def created (e : Expansion) : Nat :=
  e.createdBy e.topDegree

/-- The instruction as it stands in the degree in which its id occurs first. -/
def Creates (e : Expansion) (d : Nat) (i : Instruction) : Prop :=
  (∃ p, e.generation? d = some p ∧ i ∈ p.instructions.toList) ∧
    ∀ d' < d, ∀ p, e.generation? d' = some p → ∀ j ∈ p.instructions.toList, j.id ≠ i.id

/-- The chain of origins from a link on, up to an instruction that has none. -/
inductive Leads (e : Expansion) : Option Nat → List Instruction → Prop
  | root : Leads e none []
  | up {id : Nat} {i : Instruction} {chain : List Instruction} (found : e.instruction? id = some i)
      (rest : Leads e i.origin? chain) : Leads e (some id) (i :: chain)

/-- The ancestors of an instruction of a degree, nearest first. -/
structure Lineage (e : Expansion) (d : Nat) (i : Instruction) (chain : List Instruction) :
    Prop where
  leads : e.Leads i.origin? chain
  length : chain.length ≤ d
  decreasing : (i :: chain).Pairwise fun a b => b.id < a.id
  created : ∀ a ∈ chain, a.isBasic = false ∧ ∃ m < d, e.Creates m a
  root : ∀ a, chain.getLast? = some a → a ∈ e.loaded.instructions.toList
  own : chain = [] → ∃ a ∈ e.loaded.instructions.toList, a.Renumbers i

/-- The children in `q`, in order, of the instructions of `p`, in order. -/
structure Children (p q : Program) (parent : Nat → Nat) : Prop where
  monotone : Monotone parent
  onto : ∀ k < p.size, ∃ place < q.size, parent place = k
  childOf : ∀ place j, q.instructions[place]? = some j →
    ∃ i, p.instructions[parent place]? = some i ∧ ChildOf j i

/-- Every later degree has the ids that follow the arena as it stood. -/
structure Traced (functions : Functions) (e : Expansion) : Prop where
  next : ∀ d q, e.later[d]? = some q → ∃ p, e.generation? d = some p ∧
    nextGeneration functions p (e.arenaAt d).size = .ok q
  arena : e.arena = e.arenaAt e.topDegree

section Tracing

variable {functions : Functions}

theorem arenaAt_push {e : Expansion} {d : Nat} (le : d ≤ e.topDegree) (p : Program)
    (arena : Array Instruction) :
    ({ e with later := e.later.push p, arena } : Expansion).arenaAt d = e.arenaAt d := by
  induction d with
  | zero => rfl
  | succ d ih =>
    have same : (e.later.push p)[d]? = e.later[d]? :=
      generation?_push (d := d + 1) le p arena
    rw [arenaAt, arenaAt, same, ih (Nat.le_of_succ_le le)]

theorem Traced.advance {e e' : Expansion} (traced : e.Traced functions)
    (h : e.advance functions = .ok e') : e'.Traced functions := by
  obtain ⟨p, next, rfl⟩ := advance_eq_ok h
  refine ⟨fun d q at_d => ?_, ?_⟩
  · rw [Array.getElem?_push] at at_d
    split at at_d
    · rename_i last
      cases at_d
      refine ⟨e.latest, (generation?_push (Nat.le_of_eq last) p _).trans ?_, ?_⟩
      · rw [last]
        exact generation?_topDegree e
      · rw [arenaAt_push (Nat.le_of_eq last), last]
        exact traced.arena ▸ next
    · obtain ⟨p', before, made⟩ := traced.next d q at_d
      have lt := (Array.getElem?_eq_some_iff.1 at_d).1
      refine ⟨p', (generation?_push (Nat.le_of_lt lt) p _).trans before, ?_⟩
      rw [arenaAt_push (Nat.le_of_lt lt)]
      exact made
  · have top : (e.later.push p).size = e.later.size + 1 := Array.size_push p
    change file e.arena p = arenaAt _ (e.later.push p).size
    rw [top, arenaAt, Array.getElem?_push_size]
    exact congrArg (file · p) (traced.arena.trans (arenaAt_push (Nat.le_refl _) p _).symm)

theorem traced_of_ofProgram {p : Program} {e : Expansion}
    (expanded : (ofProgram functions p).run = some (.ok e)) : e.Traced functions := by
  have base : (base p).Traced functions :=
    ⟨fun d q at_d => by simp [Expansion.base] at at_d, rfl⟩
  exact (grow_induction (fun _ _ traced advanced => traced.advance advanced) base expanded).1

end Tracing

/-- A definition as loaded is filed as it is. -/
theorem foldl_fileNext {is : List Instruction} {arena : Array Instruction}
    (ids : ∀ k i, is[k]? = some i → i.id = arena.size + k) :
    is.foldl fileNext arena = arena ++ is.toArray := by
  induction is generalizing arena with
  | nil => simp
  | cons i rest ih =>
    have pushed : fileNext arena i = arena.push i := if_pos (ids 0 i rfl)
    rw [List.foldl_cons, pushed, ih]
    · simp
    · intro k j at_k
      rw [ids (k + 1) j at_k, Array.size_push]
      omega

theorem createdBy_mono (e : Expansion) {d d' : Nat} (le : d ≤ d') :
    e.createdBy d ≤ e.createdBy d' := by
  induction le with
  | refl => exact Nat.le_refl _
  | step _ ih =>
    refine Nat.le_trans ih ?_
    rw [createdBy]
    split
    · exact Nat.le_add_right ..
    · exact Nat.le_refl _

/-- What is known once a degree is formed. -/
structure FiledAt (e : Expansion) (d : Nat) (p : Program) : Prop where
  size : (e.arenaAt d).size = e.createdBy d
  ids : ∀ k (i : Instruction), (e.arenaAt d)[k]? = some i → i.id = k
  distinct : (p.instructions.toList.map Instruction.id).Nodup
  found : ∀ i ∈ p.instructions.toList, ∃ a, (e.arenaAt d)[i.id]? = some a ∧ a.Renumbers i

theorem FiledAt.lt_size {e : Expansion} {d : Nat} {p : Program} (filed : e.FiledAt d p)
    {i : Instruction} (mem : i ∈ p.instructions.toList) : i.id < (e.arenaAt d).size := by
  obtain ⟨a, at_id, -⟩ := filed.found i mem
  exact (Array.getElem?_eq_some_iff.1 at_id).1

/-- An expansion of a definition that does not run out of ids. -/
structure Counted (functions : Functions) (e : Expansion) : Prop where
  traced : e.Traced functions
  loaded : ∀ k i, e.loaded.instructions[k]? = some i →
    i.id = Instruction.idAt k ∧ i.origin? = none
  few : e.created ≤ Instruction.lastId + 1

namespace Counted

variable {functions : Functions} {e : Expansion} (counted : e.Counted functions)

include counted

theorem createdBy_le {d : Nat} (le : d ≤ e.topDegree) :
    e.createdBy d ≤ Instruction.lastId + 1 :=
  Nat.le_trans (e.createdBy_mono le) counted.few

theorem id_of_loaded {k : Nat} {i : Instruction} (at_k : e.loaded.instructions[k]? = some i) :
    i.id = k := by
  have few : e.loaded.size ≤ _ := counted.createdBy_le (Nat.zero_le _)
  have lt := (Array.getElem?_eq_some_iff.1 at_k).1
  rw [Program.size] at few
  rw [(counted.loaded k i at_k).1, Instruction.idAt_eq (by omega)]

theorem arenaAt_zero : e.arenaAt 0 = e.loaded.instructions := by
  rw [arenaAt, file_eq, foldl_fileNext fun k i at_k => ?_]
  · simp
  · rw [Array.getElem?_toList] at at_k
    rw [counted.id_of_loaded at_k]
    exact (Nat.zero_add k).symm

theorem filedAt_zero : e.FiledAt 0 e.loaded := by
  refine ⟨congrArg Array.size counted.arenaAt_zero, fun k i at_k => ?_, ?_, fun i mem => ?_⟩
  · rw [counted.arenaAt_zero] at at_k
    exact counted.id_of_loaded at_k
  · refine List.pairwise_map.2 (List.pairwise_iff_getElem.2 fun j k at_j at_k lt => ?_)
    have own {k : Nat} (at_k : k < e.loaded.instructions.toList.length) :
        (e.loaded.instructions.toList[k]).id = k :=
      counted.id_of_loaded (Array.getElem?_toList ▸ List.getElem?_eq_getElem at_k)
    rw [own at_j, own at_k]
    exact Nat.ne_of_lt lt
  · obtain ⟨k, at_k⟩ := List.mem_iff_getElem?.1 mem
    rw [Array.getElem?_toList] at at_k
    rw [counted.arenaAt_zero, counted.id_of_loaded at_k]
    exact ⟨i, at_k, .refl i⟩

section Round

variable {d : Nat} {p q : Program} (after : e.generation? (d + 1) = some q)

include after

/-- How one degree passes to the next. -/
theorem handsOn (filed : e.FiledAt d p) (at_d : e.generation? d = some p) :
    HandsOn p.instructions.toList (e.createdBy d) q.instructions.toList (e.createdBy (d + 1)) := by
  obtain ⟨p', before, made⟩ := counted.traced.next d q after
  obtain rfl := Option.some.inj (at_d.symm.trans before)
  obtain ⟨n', handsOn⟩ := handsOn_nextGeneration made
  rw [filed.size] at handsOn
  have total := handsOn.length_add
  have grows := handsOn.le_next
  have synthetic : p.countSynthetic ≤ p.instructions.toList.length := List.countP_le_length
  have eq : n' = e.createdBy (d + 1) := by
    rw [createdBy, at_d, after]
    simp only [Program.size, ← Array.length_toList]
    rw [Program.countSynthetic] at synthetic ⊢
    omega
  exact eq ▸ handsOn

/-- A round files what is new, and leaves the rest of the arena as it was. -/
theorem arenaAt_succ (filed : e.FiledAt d p) (at_d : e.generation? d = some p) :
    (e.arenaAt (d + 1)).size = e.createdBy (d + 1) ∧
      (∀ k < e.createdBy d, (e.arenaAt (d + 1))[k]? = (e.arenaAt d)[k]?) ∧
      ∀ k j, e.createdBy d ≤ k → (e.arenaAt (d + 1))[k]? = some j →
        j ∈ q.instructions.toList ∧ j.id = k := by
  have few := counted.createdBy_le (le_topDegree_of_generation? after)
  have filed := (counted.handsOn after filed at_d).filed few
    (fun i mem => filed.size ▸ filed.lt_size mem) filed.size
  rwa [← file_eq, show file (e.arenaAt d) q = e.arenaAt (d + 1) by
    rw [arenaAt, show e.later[d]? = some q from after]] at filed

theorem filedAt_succ (filed : e.FiledAt d p) (at_d : e.generation? d = some p) :
    e.FiledAt (d + 1) q := by
  have few := counted.createdBy_le (le_topDegree_of_generation? after)
  have handsOn := counted.handsOn after filed at_d
  have before : ∀ i ∈ p.instructions.toList, i.id < e.createdBy d :=
    fun i mem => filed.size ▸ filed.lt_size mem
  obtain ⟨size, old, new⟩ := counted.arenaAt_succ after filed at_d
  have distinct := handsOn.nodup_ids few before filed.distinct
  refine ⟨size, fun k i at_k => ?_, distinct, fun j mem => ?_⟩
  · by_cases lt : k < e.createdBy d
    · exact filed.ids k i (old k lt ▸ at_k)
    · exact (new k i (Nat.le_of_not_lt lt) at_k).2
  · obtain ⟨i, occurs, -, same⟩ | ⟨le, lt, -⟩ := handsOn.carried_or_new few j mem
    · obtain ⟨a, at_id, same'⟩ := filed.found i occurs
      rw [same.id_eq, old _ (before i occurs)]
      exact ⟨a, at_id, same'.trans same.symm⟩
    · have at_id := Array.getElem?_eq_getElem (size ▸ lt)
      obtain ⟨mem', eq⟩ := new _ _ le at_id
      rw [List.inj_on_of_nodup_map distinct mem' mem eq] at at_id
      exact ⟨j, at_id, .refl j⟩

end Round

theorem filedAt {d : Nat} {p : Program} (at_d : e.generation? d = some p) : e.FiledAt d p := by
  induction d generalizing p with
  | zero =>
    cases at_d
    exact counted.filedAt_zero
  | succ d ih =>
    obtain ⟨p', before, -⟩ := counted.traced.next d p at_d
    exact counted.filedAt_succ at_d (ih before) before

/-- What has been filed stays. -/
theorem arenaAt_mono {d d' : Nat} (le : d ≤ d') (top : d' ≤ e.topDegree) {k : Nat}
    {i : Instruction} (at_k : (e.arenaAt d)[k]? = some i) : (e.arenaAt d')[k]? = some i := by
  induction le with
  | refl => exact at_k
  | @step d' le ih =>
    obtain ⟨q, after⟩ := exists_generation? top
    obtain ⟨p, before⟩ := exists_generation? (Nat.le_of_succ_le top)
    have filed := counted.filedAt before
    have at_k := ih (Nat.le_of_succ_le top)
    have lt := (Array.getElem?_eq_some_iff.1 at_k).1
    rw [(counted.arenaAt_succ after filed before).2.1 k (filed.size ▸ lt)]
    exact at_k

/-- What is filed was created in some degree. It was loaded, or lowered from an instruction
of the degree before, which is filed too. -/
theorem exists_creates {d : Nat} (le : d ≤ e.topDegree) {k : Nat} {i : Instruction}
    (at_k : (e.arenaAt d)[k]? = some i) :
    ∃ m ≤ d, e.Creates m i ∧ (m = 0 → i.origin? = none) ∧ ∀ n, m = n + 1 →
      ∃ a : Instruction, (e.arenaAt n)[a.id]? = some a ∧ a.isBasic = false ∧
        i.origin? = some a.id ∧ a.id < i.id := by
  induction d with
  | zero =>
    rw [counted.arenaAt_zero] at at_k
    refine ⟨0, Nat.le_refl _, ⟨⟨e.loaded, rfl, ?_⟩, fun d lt => absurd lt (Nat.not_lt_zero d)⟩,
      fun _ => (counted.loaded k i at_k).2, fun n eq => nomatch eq⟩
    exact List.mem_of_getElem? (Array.getElem?_toList ▸ at_k)
  | succ d ih =>
    obtain ⟨q, after⟩ := exists_generation? le
    obtain ⟨p, before⟩ := exists_generation? (Nat.le_of_succ_le le)
    have filed := counted.filedAt before
    obtain ⟨-, old, new⟩ := counted.arenaAt_succ after filed before
    by_cases lt : k < e.createdBy d
    · obtain ⟨m, le, created⟩ := ih (Nat.le_of_succ_le le) (old k lt ▸ at_k)
      exact ⟨m, Nat.le_succ_of_le le, created⟩
    · obtain ⟨mem, rfl⟩ := new k i (Nat.le_of_not_lt lt) at_k
      refine ⟨d + 1, Nat.le_refl _, ⟨⟨q, after, mem⟩, fun d' earlier p' at_d' j occurs => ?_⟩,
        (fun eq => nomatch eq), fun n eq => ?_⟩
      · have filed' := counted.filedAt at_d'
        have lt' := filed'.lt_size occurs
        have mono := e.createdBy_mono (Nat.le_of_lt_succ earlier)
        rw [filed'.size] at lt'
        omega
      · cases eq
        obtain ⟨a, occurs, -, same⟩ | ⟨-, -, a, occurs, synthetic, origin⟩ :=
          (counted.handsOn after filed before).carried_or_new (counted.createdBy_le le) i mem
        · have lt' := filed.lt_size occurs
          rw [filed.size, ← same.id_eq] at lt'
          exact absurd lt' lt
        · obtain ⟨a', at_id, same⟩ := filed.found a occurs
          have lt' := filed.lt_size occurs
          rw [filed.size, ← same.id_eq] at lt'
          rw [← same.id_eq] at at_id origin
          exact ⟨a', at_id, same.isBasic_eq.trans synthetic, origin, by omega⟩

theorem instruction?_eq {d : Nat} (le : d ≤ e.topDegree) {i : Instruction}
    (at_id : (e.arenaAt d)[i.id]? = some i) : e.instruction? i.id = some i := by
  rw [instruction?, counted.traced.arena, counted.arenaAt_mono le (Nat.le_refl _) at_id]
  exact Option.filter_some_pos (beq_self_eq_true i.id)

/-- The way up from what is filed. Each step goes to a degree before. -/
theorem exists_lineage {d : Nat} (le : d ≤ e.topDegree) {i : Instruction}
    (at_id : (e.arenaAt d)[i.id]? = some i) :
    ∃ chain, e.Lineage d i chain ∧ chain.length ≤ i.id ∧
      (chain = [] → i ∈ e.loaded.instructions.toList) := by
  induction d using Nat.strong_induction_on generalizing i with
  | _ d ih =>
    obtain ⟨m, before, creates, first, later⟩ := counted.exists_creates le at_id
    cases m with
    | zero =>
      obtain ⟨⟨p, at_zero, mem⟩, -⟩ := creates
      cases at_zero
      refine ⟨[], ⟨?_, Nat.zero_le _, List.pairwise_singleton .., List.forall_mem_nil _,
        fun a last => (nomatch last), fun _ => ⟨i, mem, .refl i⟩⟩, Nat.zero_le _, fun _ => mem⟩
      rw [first rfl]
      exact .root
    | succ n =>
      obtain ⟨a, at_a, synthetic, origin, lt⟩ := later n rfl
      have le' : n ≤ e.topDegree := by omega
      obtain ⟨m, earlier, creates', -⟩ := counted.exists_creates le' at_a
      obtain ⟨chain, lineage, short, root⟩ := ih n (by omega) le' at_a
      refine ⟨a :: chain, ⟨?_, ?_, ?_, ?_, fun b last => ?_, fun eq => nomatch eq⟩, ?_,
        fun eq => nomatch eq⟩
      · rw [origin]
        exact .up (counted.instruction?_eq le' at_a) lineage.leads
      · exact Nat.le_trans (Nat.succ_le_succ lineage.length) before
      · refine List.pairwise_cons.2 ⟨List.forall_mem_cons.2 ⟨lt, fun b mem => ?_⟩,
          lineage.decreasing⟩
        exact Nat.lt_trans ((List.pairwise_cons.1 lineage.decreasing).1 b mem) lt
      · refine List.forall_mem_cons.2 ⟨⟨synthetic, m, by omega, creates'⟩, fun b mem => ?_⟩
        obtain ⟨synthetic, m, lt, creates⟩ := lineage.created b mem
        exact ⟨synthetic, m, by omega, creates⟩
      · cases chain with
        | nil =>
          cases last
          exact root rfl
        | cons c rest => exact lineage.root b (List.getLast?_cons_cons ▸ last)
      · exact Nat.le_trans (Nat.succ_le_succ short) lt

end Counted

theorem climb_eq {e : Expansion} {link : Option Nat} {chain : List Instruction}
    (leads : e.Leads link chain) {links : Nat} (le : chain.length ≤ links) :
    e.climb links link = chain := by
  induction leads generalizing links with
  | root => cases links <;> rfl
  | @up id i chain found _ ih =>
    cases links with
    | zero => exact absurd le (Nat.not_succ_le_zero _)
    | succ links =>
      rw [climb, found]
      exact congrArg (i :: ·) (ih (Nat.le_of_succ_le_succ le))

/-- The ancestry of an instruction of a degree is the whole way up. -/
theorem Counted.lineage_ancestry {functions : Functions} {e : Expansion}
    (counted : e.Counted functions) {d : Nat} {p : Program} (at_d : e.generation? d = some p)
    {i : Instruction} (mem : i ∈ p.instructions.toList) : e.Lineage d i (e.ancestry i) := by
  have le := le_topDegree_of_generation? at_d
  obtain ⟨a, at_id, same⟩ := (counted.filedAt at_d).found i mem
  rw [← same.id_eq] at at_id
  obtain ⟨chain, lineage, short, root⟩ := counted.exists_lineage le at_id
  have inside : a.id < e.arena.size := by
    rw [counted.traced.arena]
    exact (Array.getElem?_eq_some_iff.1 (counted.arenaAt_mono le (Nat.le_refl _) at_id)).1
  have eq : e.ancestry i = chain := by
    rw [ancestry, ← same.origin_eq]
    exact climb_eq lineage.leads (by omega)
  rw [eq]
  refine ⟨same.origin_eq ▸ lineage.leads, lineage.length, ?_, lineage.created, lineage.root,
    fun eq => ⟨a, root eq, same⟩⟩
  obtain ⟨below, rest⟩ := List.pairwise_cons.1 lineage.decreasing
  exact List.pairwise_cons.2 ⟨same.id_eq ▸ below, rest⟩

theorem counted_of_ofDefinition {functions : Functions} {d : Definition} {role : Role}
    {p : Program} (loaded : Program.ofDefinition d role = .ok p) {e : Expansion}
    (expanded : (ofProgram functions p).run = some (.ok e)) (few : e.created < 2 ^ 32) :
    e.Counted functions := by
  obtain ⟨-, rfl, -⟩ := chained_of_ofProgram expanded
  refine ⟨traced_of_ofProgram expanded, fun k i at_k => ?_, Nat.le_of_lt_succ (by
    exact Nat.lt_succ_of_lt few)⟩
  obtain ⟨r, read, -, read_r, rfl⟩ := Program.getElem?_of_load loaded at_k
  obtain ⟨kind, label, subject, op, -, -, -, -, rfl⟩ := Program.instruction_eq_ok_iff.1 read_r
  exact ⟨rfl, rfl⟩

/-- The arena is a faithful forest. It has every instruction under its id. From one degree to
the next, every instruction has its children in its place. And every instruction has its
ancestors, up to the program as loaded. -/
theorem ancestry_faithful {functions : Functions} {d : Definition} {role : Role} {p : Program}
    (loaded : Program.ofDefinition d role = .ok p) {e : Expansion}
    (expanded : (ofProgram functions p).run = some (.ok e)) (few : e.created < 2 ^ 32) :
    (e.arena.size = e.created ∧ ∀ k i, e.arena[k]? = some i → i.id = k ∧ ∃ n, e.Creates n i) ∧
      (∀ n q, e.generation? n = some q →
        (q.instructions.toList.map Instruction.id).Nodup ∧ ∀ i ∈ q.instructions.toList,
          (∃ a, e.instruction? i.id = some a ∧ a.Renumbers i) ∧ e.Lineage n i (e.ancestry i)) ∧
      ∀ n q q', e.generation? n = some q → e.generation? (n + 1) = some q' →
        q.size ≤ q'.size ∧ ∃ parent, Children q q' parent := by
  have counted := counted_of_ofDefinition loaded expanded few
  have top := counted.filedAt (generation?_topDegree e)
  have arena := counted.traced.arena
  refine ⟨⟨arena ▸ top.size, fun k i at_k => ?_⟩, fun n q at_n => ?_, fun n q q' at_n after => ?_⟩
  · rw [arena] at at_k
    obtain ⟨m, -, creates, -⟩ := counted.exists_creates (Nat.le_refl _) at_k
    exact ⟨top.ids k i at_k, m, creates⟩
  · have filed := counted.filedAt at_n
    refine ⟨filed.distinct, fun i mem => ⟨?_, counted.lineage_ancestry at_n mem⟩⟩
    obtain ⟨a, at_id, same⟩ := filed.found i mem
    rw [← same.id_eq] at at_id ⊢
    exact ⟨a, counted.instruction?_eq (le_topDegree_of_generation? at_n) at_id, same⟩
  · have handsOn := counted.handsOn after (counted.filedAt at_n) at_n
    obtain ⟨parent, monotone, onto, childOf⟩ := handsOn.exists_parent
    simp only [Array.length_toList, Array.getElem?_toList] at onto childOf
    refine ⟨?_, parent, monotone, onto, childOf⟩
    simpa only [Array.length_toList, Program.size] using handsOn.length_le

/-! A constant is assigned in two rounds: `y <- 2` clears `y` and counts it up twice, and
then the clearing is lowered to a loop. -/

def settingTwo : Definition where
  name := "T"
  records := [
    { name := "CONSTANT_ASSIGNMENT", subject := "y", arguments := [("constantValue", "2")] }]

def assigningTwo : Program where
  header := ⟨"T", "T", .main⟩
  degree := 0
  instructions := #[{ subject := .result, op := .constantAssignment 2, number := 1 }]
  positions := ∅
  inputs := .ofList ([] : List Variable)
  works := .ofList ([] : List Variable)
  names := {}

theorem ofDefinition_settingTwo : Program.ofDefinition settingTwo .main = .ok assigningTwo := rfl

theorem ancestry_faithful_assigningTwo :
    ∃ e q i, (ofProgram ∅ assigningTwo).run = some (.ok e) ∧ e.created = 6 ∧
      e.generation? 2 = some q ∧ i ∈ q.instructions.toList ∧ e.Lineage 2 i (e.ancestry i) ∧
      (e.ancestry i).map Instruction.id = [1, 0] := by
  have grown : ((ofProgram ∅ assigningTwo).run.bind Except.toOption).map (fun e =>
      (e.created, (e.generation? 2).map fun q =>
        q.instructions.toList.map fun i => (e.ancestry i).map Instruction.id)) =
      some (6, some [[1, 0], [1, 0], [0], [0]]) := by
    have rounds : roundLimit assigningTwo = 4294967297 + 1 := by decide
    rw [ofProgram, rounds]
    decide +kernel
  obtain ⟨e, expanded, facts⟩ := Option.map_eq_some_iff.1 grown
  obtain ⟨created, ancestors⟩ := Prod.mk.inj facts
  obtain ⟨q, at_two, ancestors⟩ := Option.map_eq_some_iff.1 ancestors
  have expanded := run_eq_of_toOption expanded
  obtain ⟨-, lineages, -⟩ :=
    ancestry_faithful ofDefinition_settingTwo expanded (by rw [created]; decide)
  cases listed : q.instructions.toList with
  | nil =>
    rw [listed] at ancestors
    cases ancestors
  | cons i rest =>
    rw [listed] at ancestors
    have mem : i ∈ q.instructions.toList := listed ▸ List.mem_cons_self ..
    exact ⟨e, q, i, expanded, created, at_two, mem, ((lineages 2 q at_two).2 i mem).2,
      (List.cons.inj ancestors).1⟩

end Expansion

end SLanguage
