import SLanguage.Proofs.Expansion.Rounds
import SLanguage.Proofs.Lowering.Afforded

/-! The degrees of an expansion. Each is the next generation of the one before, and the last
one makes no calls. So all calls on the way have been lowered, and could be afforded. -/

namespace SLanguage

/-- Basic instructions make no calls. -/
theorem Program.call?_of_isBasic {p : Program} (basic : p.isBasic = true) {i : Instruction}
    (mem : i ∈ p.instructions.toList) : i.op.call? = none := by
  have own := (Array.all_eq_true_iff_forall_mem.1 basic) i (Array.mem_toList_iff.1 mem)
  unfold Instruction.isBasic Instruction.kind at own
  cases op : i.op <;> rw [op] at own <;> first | rfl | cases own

namespace Expansion

/-- Every later degree is the next generation of the one before. -/
def Chained (functions : Functions) (e : Expansion) : Prop :=
  ∀ d q, e.later[d]? = some q →
    ∃ p nextId, e.generation? d = some p ∧ nextGeneration functions p nextId = .ok q

theorem generation?_topDegree (e : Expansion) : e.generation? e.topDegree = some e.latest := by
  unfold topDegree latest
  rw [Array.back?_eq_getElem?]
  cases size : e.later.size with
  | zero =>
    rw [Array.getElem?_eq_none (by omega)]
    rfl
  | succ n =>
    have lt : n < e.later.size := by omega
    rw [Nat.add_sub_cancel, generation?, Array.getElem?_eq_getElem lt]
    rfl

theorem generation_eq_ok_iff {e : Expansion} {d : Nat} {p : Program} :
    e.generation d = .ok p ↔ e.generation? d = some p := by
  unfold generation
  cases e.generation? d with
  | none => exact iff_of_false (fun eq => nomatch eq) fun eq => nomatch eq
  | some q => exact ⟨fun eq => congrArg some (Except.ok.inj eq), fun eq => by cases eq; rfl⟩

theorem generation_eq_error {e : Expansion} {d : Nat} {cause : LoweringError}
    (failed : e.generation d = .error cause) : cause = .degreeOutOfRange d e.topDegree := by
  unfold generation at failed
  cases at_d : e.generation? d with
  | none =>
    rw [at_d] at failed
    cases failed
    rfl
  | some p =>
    rw [at_d] at failed
    cases failed

theorem exists_generation? {e : Expansion} {d : Nat} (le : d ≤ e.topDegree) :
    ∃ p, e.generation? d = some p := by
  cases d with
  | zero => exact ⟨e.loaded, rfl⟩
  | succ d => exact ⟨_, Array.getElem?_eq_getElem le⟩

theorem le_topDegree_of_generation? {e : Expansion} {d : Nat} {p : Program}
    (at_d : e.generation? d = some p) : d ≤ e.topDegree := by
  cases d with
  | zero => exact Nat.zero_le _
  | succ d => exact (Array.getElem?_eq_some_iff.1 at_d).1

/-- The degrees up to the latest one stay where they are. -/
theorem generation?_push {e : Expansion} {d : Nat} (le : d ≤ e.topDegree) (p : Program)
    (arena : Array Instruction) :
    ({ e with later := e.later.push p, arena } : Expansion).generation? d = e.generation? d := by
  cases d with
  | zero => rfl
  | succ d =>
    change (e.later.push p)[d]? = e.later[d]?
    rw [Array.getElem?_push, if_neg (Nat.ne_of_lt (show d < e.later.size from le))]

theorem advance_eq_ok {functions : Functions} {e e' : Expansion}
    (h : e.advance functions = .ok e') :
    ∃ p, nextGeneration functions e.latest e.arena.size = .ok p ∧
      e' = { e with later := e.later.push p, arena := file e.arena p } := by
  unfold Expansion.advance at h
  cases next : nextGeneration functions e.latest e.arena.size with
  | error cause =>
    rw [next] at h
    cases h
  | ok p =>
    rw [next] at h
    cases h
    exact ⟨p, rfl, rfl⟩

theorem Chained.advance {functions : Functions} {e e' : Expansion} (chained : e.Chained functions)
    (h : e.advance functions = .ok e') : e'.Chained functions ∧ e'.loaded = e.loaded := by
  obtain ⟨p, next, rfl⟩ := advance_eq_ok h
  refine ⟨fun d q at_d => ?_, rfl⟩
  rw [Array.getElem?_push] at at_d
  split at at_d
  · rename_i last
    cases at_d
    refine ⟨e.latest, e.arena.size, (generation?_push (Nat.le_of_eq last) p _).trans ?_, next⟩
    rw [last]
    exact generation?_topDegree e
  · obtain ⟨p', nextId, before, made⟩ := chained d q at_d
    have lt := (Array.getElem?_eq_some_iff.1 at_d).1
    exact ⟨p', nextId, (generation?_push (Nat.le_of_lt lt) p _).trans before, made⟩

/-- What every round keeps holds in the end, and nothing is left to be lowered then. -/
theorem grow_induction {functions : Functions} {motive : Expansion → Prop}
    (next : ∀ e e', motive e → e.advance functions = .ok e' → motive e') {rounds : Nat}
    {e e' : Expansion} (start : motive e) (h : (grow functions rounds e).run = some (.ok e')) :
    motive e' ∧ e'.latest.isBasic = true := by
  induction rounds generalizing e with
  | zero =>
    unfold Expansion.grow at h
    split at h
    · rename_i basic
      cases h
      exact ⟨start, basic⟩
    · cases h
  | succ rounds ih =>
    unfold Expansion.grow at h
    split at h
    · rename_i basic
      cases h
      exact ⟨start, basic⟩
    · obtain ⟨mid, advanced, rest⟩ := Attempt.run_bind_eq_ok.1 h
      exact ih (next e mid start (Option.some.inj advanced)) rest

theorem chained_of_ofProgram {functions : Functions} {p : Program} {e : Expansion}
    (expanded : (ofProgram functions p).run = some (.ok e)) :
    e.Chained functions ∧ e.loaded = p ∧ e.latest.isBasic = true := by
  have base : (base p).Chained functions := fun d q at_d => by simp [Expansion.base] at at_d
  obtain ⟨⟨chained, loaded⟩, basic⟩ := grow_induction
    (motive := fun e => e.Chained functions ∧ e.loaded = p) (fun e e' kept advanced => by
      obtain ⟨chained, loaded⟩ := kept.1.advance advanced
      exact ⟨chained, loaded.trans kept.2⟩) ⟨base, rfl⟩ expanded
  exact ⟨chained, loaded, basic⟩

/-- What passes from each generation to the next holds at every degree. -/
theorem Chained.induction {functions : Functions} {e : Expansion} (chained : e.Chained functions)
    {motive : Program → Prop} (loaded : motive e.loaded)
    (next : ∀ p q nextId, motive p → nextGeneration functions p nextId = .ok q → motive q)
    {d : Nat} {q : Program} (at_d : e.generation? d = some q) : motive q := by
  induction d generalizing q with
  | zero =>
    cases at_d
    exact loaded
  | succ d ih =>
    obtain ⟨p, nextId, before, made⟩ := chained d q at_d
    exact next p q nextId (ih before) made

theorem assembled_of_nextGeneration {functions : Functions} {p q : Program} {nextId : Nat}
    (made : nextGeneration functions p nextId = .ok q) : q.Assembled := by
  obtain ⟨js, after, -, built⟩ := nextGeneration_eq_ok made
  exact ⟨_, _, _, _, built⟩

/-- An expansion that came to an end, of a program as definitions have it. -/
structure Complete (functions : Functions) (e : Expansion) : Prop where
  callees : ∀ f ∈ functions.items, f.Assembled
  assembled : e.loaded.Assembled
  inside : ∀ i ∈ e.loaded.instructions.toList, i.label ≠ .exit
  chained : e.Chained functions
  basic : e.latest.isBasic = true

theorem complete_of_ofProgram {functions : Functions}
    (callees : ∀ f ∈ functions.items, f.Assembled) {d : Definition} {role : Role} {p : Program}
    (loaded : Program.ofDefinition d role = .ok p) {e : Expansion}
    (expanded : (ofProgram functions p).run = some (.ok e)) :
    e.Complete functions ∧ e.loaded = p := by
  obtain ⟨chained, rfl, basic⟩ := chained_of_ofProgram expanded
  exact ⟨⟨callees, Program.assembled_of_ofDefinition loaded,
    Program.label_ne_exit_of_ofDefinition loaded, chained, basic⟩, rfl⟩

namespace Complete

variable {functions : Functions} {e : Expansion} (complete : e.Complete functions)

include complete

theorem sound {d : Nat} {p : Program} (at_d : e.generation? d = some p) :
    p.Assembled ∧ ∀ i ∈ p.instructions.toList, i.label ≠ .exit := by
  refine complete.chained.induction (motive := fun p =>
    p.Assembled ∧ ∀ i ∈ p.instructions.toList, i.label ≠ .exit)
    ⟨complete.assembled, complete.inside⟩ ?_ at_d
  rintro p q nextId ⟨assembled, inside⟩ made
  obtain ⟨a, lays⟩ := Expansion.exists_lays complete.callees assembled inside made
  exact ⟨lays.target, lays.label_ne_exit⟩

theorem exists_lays {d : Nat} {q : Program} (at_d : e.generation? (d + 1) = some q) :
    ∃ p a, e.generation? d = some p ∧ Lays functions p q a := by
  obtain ⟨p, nextId, before, made⟩ := complete.chained d q at_d
  obtain ⟨assembled, inside⟩ := complete.sound before
  obtain ⟨a, lays⟩ := Expansion.exists_lays complete.callees assembled inside made
  exact ⟨p, a, before, lays⟩

/-- The induction goes down from the last degree, in which there are no calls. -/
theorem affordable {d : Nat} {p : Program} (at_d : e.generation? d = some p) :
    ∀ i ∈ p.instructions.toList, ∀ c, i.op.call? = some c → c.Affordable functions := by
  have below : ∀ left d p, d + left = e.topDegree → e.generation? d = some p →
      ∀ i ∈ p.instructions.toList, ∀ c, i.op.call? = some c → c.Affordable functions := by
    intro left
    induction left with
    | zero =>
      intro d p place at_d i mem c calls
      rw [show d = e.topDegree from place, generation?_topDegree] at at_d
      obtain rfl := Option.some.inj at_d
      rw [Program.call?_of_isBasic complete.basic mem] at calls
      cases calls
    | succ left ih =>
      intro d p place at_d i mem c calls
      have lt : d < e.later.size := by
        unfold topDegree at place
        omega
      have after : e.generation? (d + 1) = some e.later[d] := Array.getElem?_eq_getElem lt
      obtain ⟨p', a, before, lays⟩ := complete.exists_lays after
      obtain rfl := Option.some.inj (at_d.symm.trans before)
      obtain ⟨k, at_k⟩ := List.mem_iff_getElem?.1 mem
      rw [Array.getElem?_toList] at at_k
      obtain ⟨n, lowered, gives⟩ := lays.lowered at_k
      exact lowered.affordable complete.callees gives lays.target (lays.holds at_k)
        (ih (d + 1) _ (by omega) after) calls
  intro i mem c calls
  have le := le_topDegree_of_generation? at_d
  exact below (e.topDegree - d) d p (by omega) at_d i mem c calls

end Complete

theorem Complete.preserves {ev : Evaluator} (interpret : ev.strategy = .interpret)
    {e : Expansion} (complete : e.Complete ev.functions) {d : Nat} {q : Program}
    (at_d : e.generation? d = some q) : Preserves ev e.loaded q := by
  induction d generalizing q with
  | zero =>
    cases at_d
    exact .refl ev _
  | succ d ih =>
    obtain ⟨p, a, before, lays⟩ := complete.exists_lays at_d
    exact (ih before).trans (lays.preserves interpret)

end Expansion

end SLanguage
