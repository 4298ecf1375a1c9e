import Mathlib.Order.Monotone.Basic
import SLanguage.Expansion.Ancestry
import SLanguage.Proofs.Expansion.Degrees

/-! How ids are given. What is basic is carried over with its id. The instructions that a
synthetic one is lowered to get the next ids in order, and its id as their origin. The arena
takes whatever carries the next id, so it ends up with every instruction under its own id. -/

namespace SLanguage

/-- The same instruction, perhaps under another number. -/
def Instruction.Renumbers (j i : Instruction) : Prop :=
  j = { i with number := j.number }

namespace Instruction.Renumbers

variable {i j k : Instruction}

theorem refl (i : Instruction) : i.Renumbers i :=
  rfl

theorem symm (same : j.Renumbers i) : i.Renumbers j := by
  rw [Renumbers] at same ⊢
  rw [same]

theorem trans (same : k.Renumbers j) (same' : j.Renumbers i) : k.Renumbers i := by
  rw [Renumbers] at same same' ⊢
  rw [same'] at same
  exact same

theorem id_eq (same : j.Renumbers i) : j.id = i.id := by
  rw [same]

theorem origin_eq (same : j.Renumbers i) : j.origin? = i.origin? := by
  rw [same]

theorem isBasic_eq (same : j.Renumbers i) : j.isBasic = i.isBasic := by
  rw [same]
  rfl

end Instruction.Renumbers

section Blocks

namespace Drafting

variable {α β : Type} {P : β → Prop}

/-- Whatever the work gives if it succeeds. -/
def Yields (x : Drafting β) (P : β → Prop) : Prop :=
  ∀ names b after, x.drawn names = (.ok b, after) → P b

theorem Yields.pure {b : β} (holds : P b) : Yields (pure b : Drafting β) P := by
  intro names b' after h
  cases h
  exact holds

theorem Yields.bind {x : Drafting α} {f : α → Drafting β} (rest : ∀ a, (f a).Yields P) :
    (x >>= f).Yields P := by
  intro names b after h
  obtain ⟨a, mid, -, h⟩ := drawn_bind_eq_ok.1 h
  exact rest a mid b after h

end Drafting

open Drafting (Yields)

namespace Lowering

/-- Whatever a rule succeeds with, there is an instruction in it. -/
theorem lower_yields (functions : Functions) (i : Instruction) :
    (lower functions i).Yields (∃ first rest, · = first :: rest) := by
  have entered {rule : Drafting (List Instruction)}
      (yields : rule.Yields (∃ first rest, · = first :: rest)) :
      (do return withEntry i.label (← rule) : Drafting (List Instruction)).Yields
        (∃ first rest, · = first :: rest) := by
    intro names block after h
    obtain ⟨inner, mid, drawn, h⟩ := Drafting.drawn_bind_eq_ok.1 h
    cases h
    obtain ⟨first, rest, rfl⟩ := yields names inner after drawn
    unfold withEntry
    split
    · exact ⟨first, rest, rfl⟩
    · dsimp only
      split <;> exact ⟨_, _, rfl⟩
  unfold lower
  cases i.op with
  | increase | decrease | neutral | jumpNotZero l => exact .pure ⟨_, _, rfl⟩
  | zeroVariable =>
    change (clearing i.subject i.label).Yields _
    unfold clearing
    split
    · exact .bind fun _ => .pure ⟨_, _, rfl⟩
    · exact .pure ⟨_, _, rfl⟩
  | gotoLabel l => exact entered (.bind fun _ => .pure ⟨_, _, rfl⟩)
  | assignment w =>
    refine entered ?_
    unfold copying
    by_cases eq : i.subject = w
    · rw [if_pos eq]
      exact .pure ⟨_, _, rfl⟩
    · rw [if_neg eq]
      exact .bind fun _ => .bind fun _ => .bind fun _ => .bind fun _ => .pure ⟨_, _, rfl⟩
  | constantAssignment k => exact entered (.pure ⟨_, _, rfl⟩)
  | jumpZero l => exact entered (.bind fun _ => .pure ⟨_, _, rfl⟩)
  | jumpEqualConstant k l => exact entered (.bind fun _ => .bind fun _ => .pure ⟨_, _, rfl⟩)
  | jumpEqualVariable w l =>
    exact entered (.bind fun _ => .bind fun _ => .bind fun _ => .bind fun _ => .bind fun _ =>
      .pure ⟨_, _, rfl⟩)
  | quote c => exact entered (.bind fun _ => .pure ⟨_, _, rfl⟩)
  | jumpEqualFunction c l => exact entered (.bind fun _ => .pure ⟨_, _, rfl⟩)

end Lowering

end Blocks

namespace Expansion

/-- Files an instruction if it carries the next id. -/
def fileNext (arena : Array Instruction) (i : Instruction) : Array Instruction :=
  if i.id = arena.size then arena.push i else arena

theorem file_eq (arena : Array Instruction) (p : Program) :
    file arena p = p.instructions.toList.foldl fileNext arena :=
  (Array.foldl_toList ..).symm

section Filing

variable {is : List Instruction} {arena : Array Instruction}

/-- What is filed was in the arena before, or has the id of its place. -/
theorem old_or_filed {k : Nat} {i : Instruction} (at_k : (is.foldl fileNext arena)[k]? = some i) :
    arena[k]? = some i ∨ arena.size ≤ k ∧ i ∈ is ∧ i.id = k := by
  induction is generalizing arena with
  | nil => exact .inl at_k
  | cons j is ih =>
    have later := ih at_k
    unfold fileNext at later
    split at later
    · rename_i next
      rw [Array.getElem?_push, Array.size_push] at later
      obtain old | ⟨le, mem, id⟩ := later
      · split at old
        · rename_i last
          cases old
          exact .inr ⟨Nat.le_of_eq last.symm, List.mem_cons_self .., next.trans last.symm⟩
        · exact .inl old
      · exact .inr ⟨Nat.le_of_succ_le le, List.mem_cons_of_mem _ mem, id⟩
    · exact later.imp_right fun ⟨le, mem, id⟩ => ⟨le, List.mem_cons_of_mem _ mem, id⟩

theorem size_le_foldl (is : List Instruction) (arena : Array Instruction) :
    arena.size ≤ (is.foldl fileNext arena).size := by
  induction is generalizing arena with
  | nil => exact Nat.le_refl _
  | cons i is ih =>
    refine Nat.le_trans ?_ (ih (fileNext arena i))
    unfold fileNext
    split
    · rw [Array.size_push]
      exact Nat.le_succ _
    · exact Nat.le_refl _

/-- What was in the arena stays in its place. -/
theorem getElem?_foldl_fileNext {k : Nat} (lt : k < arena.size) :
    (is.foldl fileNext arena)[k]? = arena[k]? := by
  induction is generalizing arena with
  | nil => rfl
  | cons i is ih =>
    rw [List.foldl_cons, fileNext]
    split
    · rw [ih (by rw [Array.size_push]; omega), Array.getElem?_push_lt lt,
        Array.getElem?_eq_getElem lt]
    · exact ih lt

/-- The next instruction in the count is filed, unless the ids are used up. -/
theorem size_fileNext {i : Instruction} {n : Nat}
    (size : arena.size = min n (Instruction.lastId + 1)) (id : i.id = Instruction.idAt n) :
    (fileNext arena i).size = min (n + 1) (Instruction.lastId + 1) := by
  unfold Instruction.idAt at id
  unfold fileNext
  split
  · rw [Array.size_push]
    omega
  · omega

end Filing

/-- What a generation hands on: the instructions of the next one in order, and the next id
before and after them. What an instruction is lowered to comes one by one, and once one is
there the instruction may be left behind. -/
inductive HandsOn : List Instruction → Nat → List Instruction → Nat → Prop
  | nil {n : Nat} : HandsOn [] n [] n
  | carried {i j : Instruction} {is js : List Instruction} {n n' : Nat}
      (basic : i.isBasic = true) (same : j.Renumbers i) (rest : HandsOn is n js n') :
      HandsOn (i :: is) n (j :: js) n'
  | made {i j : Instruction} {is left js : List Instruction} {n n' : Nat}
      (synthetic : i.isBasic = false) (id : j.id = Instruction.idAt n)
      (origin : j.origin? = some i.id) (stays : left = is ∨ left = i :: is)
      (rest : HandsOn left (n + 1) js n') : HandsOn (i :: is) n (j :: js) n'

/-- An instruction is the child of one in the generation before if it was carried over from
there or made by lowering it. -/
def ChildOf (j i : Instruction) : Prop :=
  (i.isBasic = true ∧ j.Renumbers i) ∨ (i.isBasic = false ∧ j.origin? = some i.id)

theorem stamp_cons (origin nextId : Nat) (b : Instruction) (block : List Instruction) :
    stamp origin nextId (b :: block) =
      { b with id := Instruction.idAt nextId, origin? := some origin } ::
        stamp origin (nextId + 1) block := by
  rw [stamp, List.mapIdx_cons, stamp]
  refine congrArg (List.cons _) ?_
  refine congrArg (List.mapIdx · block) (funext fun k => funext fun i => ?_)
  rw [Nat.add_right_comm, Nat.add_assoc]

namespace HandsOn

variable {is js : List Instruction} {n n' : Nat}

theorem stamped {i : Instruction} (synthetic : i.isBasic = false) {first : Instruction}
    {block : List Instruction} (rest : HandsOn is (n + (block.length + 1)) js n') :
    HandsOn (i :: is) n (stamp i.id n (first :: block) ++ js) n' := by
  induction block generalizing n first with
  | nil => exact .made synthetic rfl rfl (.inl rfl) rest
  | cons second block ih =>
    rw [stamp_cons]
    refine .made synthetic rfl rfl (.inr rfl) (ih ?_)
    rwa [Nat.add_right_comm, Nat.add_assoc]

theorem renumbered (h : HandsOn is n js n') {js' : List Instruction}
    (same : List.Forall₂ Instruction.Renumbers js' js) : HandsOn is n js' n' := by
  induction h generalizing js' with
  | nil =>
    cases same
    exact .nil
  | carried basic own _ ih =>
    cases same with
    | cons first others => exact .carried basic (first.trans own) (ih others)
  | made synthetic id origin stays _ ih =>
    cases same with
    | cons first others =>
      exact .made synthetic (first.id_eq.trans id) (first.origin_eq.trans origin) stays (ih others)

theorem sublist_of_stays {i : Instruction} {left : List Instruction}
    (stays : left = is ∨ left = i :: is) : left.Sublist (i :: is) := by
  obtain rfl | rfl := stays
  · exact List.sublist_cons_self ..
  · exact .refl _

/-- With a child of the first instruction in front, `shift` says how far the parents of the others
move on. -/
def parentAfter (parent : Nat → Nat) (shift : Nat) : Nat → Nat
  | 0 => 0
  | place + 1 => parent place + shift

/-- The places of the children in order, each with the place of its parent. -/
theorem exists_parent (h : HandsOn is n js n') :
    ∃ parent : Nat → Nat, Monotone parent ∧
      (∀ k < is.length, ∃ place < js.length, parent place = k) ∧
      ∀ place j, js[place]? = some j → ∃ i, is[parent place]? = some i ∧ ChildOf j i := by
  have extend {i j : Instruction} {is left js : List Instruction} (own : ChildOf j i)
      {shift : Nat} (stays : shift = 1 ∧ left = is ∨ shift = 0 ∧ left = i :: is)
      (ih : ∃ parent : Nat → Nat, Monotone parent ∧
        (∀ k < left.length, ∃ place < js.length, parent place = k) ∧
        ∀ place j, js[place]? = some j → ∃ i, left[parent place]? = some i ∧ ChildOf j i) :
      ∃ parent : Nat → Nat, Monotone parent ∧
        (∀ k < (i :: is).length, ∃ place < (j :: js).length, parent place = k) ∧
        ∀ place b, (j :: js)[place]? = some b →
          ∃ a, (i :: is)[parent place]? = some a ∧ ChildOf b a := by
    obtain ⟨parent, mono, onto, child⟩ := ih
    refine ⟨parentAfter parent shift, monotone_nat_of_le_succ fun place => ?_, fun k lt => ?_,
      fun place b at_place => ?_⟩
    · cases place with
      | zero => exact Nat.zero_le _
      | succ place => exact Nat.add_le_add_right (mono (Nat.le_succ place)) shift
    · cases k with
      | zero => exact ⟨0, Nat.succ_pos _, rfl⟩
      | succ k =>
        obtain ⟨place, lt, eq⟩ := onto (k + 1 - shift) (by
          obtain ⟨rfl, rfl⟩ | ⟨rfl, rfl⟩ := stays
          · exact Nat.lt_of_succ_lt_succ lt
          · exact lt)
        exact ⟨place + 1, Nat.succ_lt_succ lt, by rw [parentAfter]; omega⟩
    · cases place with
      | zero =>
        cases at_place
        exact ⟨i, rfl, own⟩
      | succ place =>
        obtain ⟨rfl, rfl⟩ | ⟨rfl, rfl⟩ := stays
        · exact child place b at_place
        · exact child place b at_place
  induction h with
  | nil =>
    exact ⟨id, monotone_id, fun _ lt => absurd lt (Nat.not_lt_zero _),
      fun _ _ at_place => by cases at_place⟩
  | carried basic same _ ih => exact extend (.inl ⟨basic, same⟩) (.inl ⟨rfl, rfl⟩) ih
  | made synthetic _ origin stays _ ih =>
    obtain rfl | rfl := stays
    · exact extend (.inr ⟨synthetic, origin⟩) (.inl ⟨rfl, rfl⟩) ih
    · exact extend (.inr ⟨synthetic, origin⟩) (.inr ⟨rfl, rfl⟩) ih

/-- Every id that is given is given once, and nothing else adds to the length. -/
theorem length_add (h : HandsOn is n js n') :
    js.length + is.countP (fun i => !i.isBasic) + n = is.length + n' := by
  induction h with
  | nil => rfl
  | carried basic _ _ ih =>
    rw [List.countP_cons_of_neg (by simp [basic]), List.length_cons, List.length_cons]
    omega
  | made synthetic _ _ stays _ ih =>
    obtain rfl | rfl := stays
    · rw [List.countP_cons_of_pos (by simp [synthetic]), List.length_cons, List.length_cons]
      omega
    · rw [List.length_cons]
      omega

theorem length_le (h : HandsOn is n js n') : is.length ≤ js.length := by
  induction h with
  | nil => exact Nat.le_refl _
  | carried _ _ _ ih => exact Nat.succ_le_succ ih
  | made _ _ _ stays _ ih =>
    obtain rfl | rfl := stays
    · exact Nat.succ_le_succ ih
    · exact Nat.le_succ_of_le ih

theorem le_next (h : HandsOn is n js n') : n ≤ n' := by
  induction h with
  | nil => exact Nat.le_refl _
  | carried _ _ _ ih => exact ih
  | made _ _ _ _ _ ih => exact Nat.le_of_succ_le ih

/-- What is new has been given a place in the count of ids. -/
theorem carried_or_made (h : HandsOn is n js n') :
    ∀ j ∈ js, (∃ i ∈ is, i.isBasic = true ∧ j.Renumbers i) ∨
      ∃ m, n ≤ m ∧ m < n' ∧ j.id = Instruction.idAt m ∧
        ∃ i ∈ is, i.isBasic = false ∧ j.origin? = some i.id := by
  induction h with
  | nil => exact List.forall_mem_nil _
  | @carried i j is js _ _ basic same _ ih =>
    refine List.forall_mem_cons.2 ⟨.inl ⟨i, List.mem_cons_self .., basic, same⟩, fun b mem => ?_⟩
    refine (ih b mem).imp ?_ ?_
    · exact fun ⟨a, mem, old⟩ => ⟨a, List.mem_cons_of_mem _ mem, old⟩
    · exact fun ⟨m, le, lt, id, a, mem, lowered⟩ =>
        ⟨m, le, lt, id, a, List.mem_cons_of_mem _ mem, lowered⟩
  | @made i j is left js n _ synthetic id origin stays rest ih =>
    have lt := rest.le_next
    have sublist := sublist_of_stays stays
    refine List.forall_mem_cons.2
      ⟨.inr ⟨n, Nat.le_refl n, lt, id, i, List.mem_cons_self .., synthetic, origin⟩,
        fun b mem => ?_⟩
    refine (ih b mem).imp ?_ ?_
    · exact fun ⟨a, mem, old⟩ => ⟨a, sublist.mem mem, old⟩
    · exact fun ⟨m, le, lt, id, a, mem, lowered⟩ =>
        ⟨m, Nat.le_of_succ_le le, lt, id, a, sublist.mem mem, lowered⟩

/-- What is new is filed as long as there are ids. -/
theorem size_foldl (h : HandsOn is n js n') {arena : Array Instruction}
    (before : ∀ i ∈ is, i.id < arena.size) (size : arena.size = min n (Instruction.lastId + 1)) :
    (js.foldl fileNext arena).size = min n' (Instruction.lastId + 1) := by
  induction h generalizing arena with
  | nil => exact size
  | carried _ same _ ih =>
    obtain ⟨own, before⟩ := List.forall_mem_cons.1 before
    rw [List.foldl_cons, fileNext, if_neg (same.id_eq ▸ Nat.ne_of_lt own)]
    exact ih before size
  | @made i j is left js n n' _ id _ stays _ ih =>
    have grows := size_le_foldl [j] arena
    refine ih (fun a mem => ?_) (size_fileNext size id)
    exact Nat.lt_of_lt_of_le (before a ((sublist_of_stays stays).mem mem)) grows

section Ids

variable (h : HandsOn is n js n') (few : n' ≤ Instruction.lastId + 1)

include h few

/-- What is new has an id between the two next ones. -/
theorem carried_or_new :
    ∀ j ∈ js, (∃ i ∈ is, i.isBasic = true ∧ j.Renumbers i) ∨
      (n ≤ j.id ∧ j.id < n' ∧ ∃ i ∈ is, i.isBasic = false ∧ j.origin? = some i.id) := by
  intro j mem
  refine (h.carried_or_made j mem).imp_right ?_
  rintro ⟨m, le, lt, id, lowered⟩
  rw [Instruction.idAt_eq (by omega)] at id
  exact ⟨id ▸ le, id ▸ lt, lowered⟩

theorem nodup_ids (before : ∀ i ∈ is, i.id < n) (distinct : (is.map Instruction.id).Nodup) :
    (js.map Instruction.id).Nodup := by
  induction h with
  | nil => exact List.nodup_nil
  | @carried i j is js _ _ _ same rest ih =>
    obtain ⟨own, before⟩ := List.forall_mem_cons.1 before
    obtain ⟨apart, distinct⟩ := List.nodup_cons.1 distinct
    refine List.nodup_cons.2 ⟨fun mem => ?_, ih few before distinct⟩
    obtain ⟨b, mem, eq⟩ := List.mem_map.1 mem
    rw [same.id_eq] at eq
    obtain ⟨a, mem, -, same'⟩ | ⟨le, -⟩ := rest.carried_or_new few b mem
    · exact apart (List.mem_map.2 ⟨a, mem, same'.id_eq.symm.trans eq⟩)
    · omega
  | @made i j is left js n _ _ id _ stays rest ih =>
    have lt := rest.le_next
    have sublist := sublist_of_stays stays
    have before : ∀ a ∈ left, a.id < n := fun a mem => before a (sublist.mem mem)
    rw [Instruction.idAt_eq (by omega)] at id
    refine List.nodup_cons.2 ⟨fun mem => ?_, ih few (fun a mem => Nat.lt_succ_of_lt (before a mem))
      (distinct.sublist (sublist.map _))⟩
    obtain ⟨b, mem, eq⟩ := List.mem_map.1 mem
    obtain ⟨a, mem, -, same⟩ | ⟨le, -⟩ := rest.carried_or_new few b mem
    · have lt := before a mem
      rw [← same.id_eq] at lt
      omega
    · omega

/-- The arena grows by what is new and by nothing else. -/
theorem filed (before : ∀ i ∈ is, i.id < n) {arena : Array Instruction} (size : arena.size = n) :
    (js.foldl fileNext arena).size = n' ∧
      (∀ k < n, (js.foldl fileNext arena)[k]? = arena[k]?) ∧
      ∀ k j, n ≤ k → (js.foldl fileNext arena)[k]? = some j → j ∈ js ∧ j.id = k := by
  have grows := h.le_next
  have size' := h.size_foldl (size ▸ before) (by omega)
  refine ⟨by omega, fun k lt => getElem?_foldl_fileNext (size ▸ lt), fun k j le at_k => ?_⟩
  obtain old | ⟨-, mem, id⟩ := old_or_filed at_k
  · have lt := (Array.getElem?_eq_some_iff.1 old).1
    omega
  · exact ⟨mem, id⟩

end Ids

end HandsOn

theorem renumbers_numbered (is : List Instruction) :
    List.Forall₂ Instruction.Renumbers (Program.numbered is) is := by
  refine List.forall₂_iff_get.2 ⟨Program.length_numbered is, fun k _ _ => ?_⟩
  simp only [Program.numbered, List.get_eq_getElem, List.getElem_mapIdx]
  rfl

theorem handsOn_lowerAll {functions : Functions} {is js : List Instruction} {nextId : Nat}
    {names after : Names} (h : (lowerAll functions is nextId).drawn names = (.ok js, after)) :
    ∃ n', HandsOn is nextId js n' := by
  induction is generalizing nextId names js with
  | nil =>
    cases h
    exact ⟨nextId, .nil⟩
  | cons i rest ih =>
    rw [lowerAll] at h
    split at h
    · rename_i basic
      obtain ⟨js', mid, others, h⟩ := Drafting.drawn_bind_eq_ok.1 h
      cases h
      obtain ⟨n', handsOn⟩ := ih others
      exact ⟨n', .carried basic (.refl i) handsOn⟩
    · rename_i synthetic
      obtain ⟨block, mid, lowered, h⟩ := Drafting.drawn_bind_eq_ok.1 h
      obtain ⟨js', last, others, h⟩ := Drafting.drawn_bind_eq_ok.1 h
      cases h
      obtain ⟨first, block, rfl⟩ := Lowering.lower_yields functions i names _ mid lowered
      obtain ⟨n', handsOn⟩ := ih others
      exact ⟨n', .stamped (Bool.eq_false_iff.2 synthetic) handsOn⟩

/-- The next generation is handed on from the one before. -/
theorem handsOn_nextGeneration {functions : Functions} {p q : Program} {nextId : Nat}
    (made : nextGeneration functions p nextId = .ok q) :
    ∃ n', HandsOn p.instructions.toList nextId q.instructions.toList n' := by
  obtain ⟨js, after, drawn, built⟩ := nextGeneration_eq_ok made
  obtain ⟨positions, -, -, rfl⟩ := Program.assemble_eq_ok built
  obtain ⟨n', handsOn⟩ := handsOn_lowerAll drawn
  exact ⟨n', handsOn.renumbered (renumbers_numbered js)⟩

end Expansion

end SLanguage
