import SLanguage.Proofs.Expansion.Generations
import SLanguage.Proofs.Expansion.Meaning

/-! How expansion ends. Every round takes one from the rank, so there are as many degrees as
the rank says, unless names run out. The rounds that are allowed are enough: without calls
three of them are, and with calls every round uses a work variable up. -/

namespace SLanguage.Expansion

variable {functions : Functions} {e e' : Expansion} {p q : Program}

theorem latest_of_advance (h : e.advance functions = .ok e') :
    nextGeneration functions e.latest e.arena.size = .ok e'.latest ∧
      e'.topDegree = e.topDegree + 1 := by
  obtain ⟨q, next, rfl⟩ := advance_eq_ok h
  refine ⟨next.trans (congrArg Except.ok ?_), Array.size_push q⟩
  simp [latest]

theorem advance_eq_error {cause : LoweringError} (h : e.advance functions = .error cause) :
    nextGeneration functions e.latest e.arena.size = .error cause := by
  unfold Expansion.advance at h
  cases next : nextGeneration functions e.latest e.arena.size with
  | error cause' =>
    rw [next] at h
    cases h
    rfl
  | ok q =>
    rw [next] at h
    cases h

/-- The rounds reach the rank, or there are more of them than work variables left. -/
def Enough (functions : Functions) (rounds : Nat) (p : Program) : Prop :=
  p.rank functions.rank ≤ rounds ∨ 3 + (Serial.last - p.names.highestWork) ≤ rounds

namespace Ready

theorem ranked (ready : Ready functions p) : ∀ name ∈ p.callees, ∀ f,
    functions.find? name = some f → functions.rank name = f.rank functions.rank :=
  fun name called _ found => Functions.rank_eq (ready.resolves name called) found

theorem rank_next (ready : Ready functions p) {nextId : Nat}
    (next : nextGeneration functions p nextId = .ok q) (synthetic : p.isBasic = false) :
    p.rank functions.rank = q.rank functions.rank + 1 := by
  obtain ⟨a, lays⟩ := ready.exists_lays next
  have le (m : Nat) : q.rank functions.rank ≤ m ↔ p.rank functions.rank ≤ m + 1 :=
    lays.rank_le_iff ready.ranked
  have pos : p.rank functions.rank ≠ 0 := by
    rw [Ne, Program.rank_eq_zero_iff, synthetic]
    exact Bool.false_ne_true
  have upper := (le _).1 (Nat.le_refl _)
  have lower := (le (p.rank functions.rank - 1)).2 (by omega)
  omega

theorem enough_next (ready : Ready functions p) {nextId : Nat}
    (next : nextGeneration functions p nextId = .ok q) (synthetic : p.isBasic = false)
    {rounds : Nat} (enough : Enough functions (rounds + 1) p) : Enough functions rounds q := by
  have rank := ready.rank_next next synthetic
  obtain reached | left := enough
  · exact .inl (by omega)
  · by_cases silent : p.callees = []
    · have three : p.rank functions.rank ≤ 3 := Program.rank_le_three silent
      exact .inl (by omega)
    · obtain ⟨a, lays⟩ := ready.exists_lays next
      obtain ⟨more, last⟩ := lays.highestWork_lt silent
      exact .inr (by omega)

/-- Where the rounds are enough, growing ends, and if there are names it ends at the rank. -/
theorem grows {rounds : Nat} (ready : Ready functions e.latest)
    (enough : Enough functions rounds e.latest) :
    (∃ cause, (grow functions rounds e).run = some (.error (.names cause))) ∨
      ∃ e', (grow functions rounds e).run = some (.ok e') ∧
        e'.topDegree = e.topDegree + e.latest.rank functions.rank := by
  induction rounds generalizing e with
  | zero =>
    have none : e.latest.rank functions.rank = 0 := by
      obtain le | left := enough
      · exact Nat.le_zero.1 le
      · omega
    rw [grow, if_pos (Program.rank_eq_zero_iff.1 none), none]
    exact .inr ⟨e, rfl, rfl⟩
  | succ rounds ih =>
    rw [grow]
    cases basic : e.latest.isBasic with
    | true =>
      have none : e.latest.rank functions.rank = 0 := Program.rank_eq_zero_iff.2 basic
      rw [none]
      exact .inr ⟨e, rfl, rfl⟩
    | false =>
      cases advanced : e.advance functions with
      | error cause =>
        obtain ⟨names, rfl⟩ := ready.nextGeneration_runsOut (advance_eq_error advanced)
        exact .inl ⟨names, rfl⟩
      | ok e' =>
        obtain ⟨next, degree⟩ := latest_of_advance advanced
        have rank := ready.rank_next next basic
        obtain ⟨cause, failed⟩ | ⟨e'', grown, top⟩ :=
          ih (ready.next next) (ready.enough_next next basic enough)
        · exact .inl ⟨cause, failed⟩
        · refine .inr ⟨e'', grown, ?_⟩
          rw [top, degree, rank]
          omega

theorem expands (ready : Ready functions p) :
    (∃ cause, (ofProgram functions p).run = some (.error (.names cause))) ∨
      ∃ e, (ofProgram functions p).run = some (.ok e) ∧
        e.topDegree = p.rank functions.rank := by
  have enough : Enough functions (roundLimit p) (base p).latest := .inr (Nat.le_refl _)
  obtain failed | ⟨e, expanded, top⟩ := grows (e := base p) ready enough
  · exact .inl failed
  · exact .inr ⟨e, expanded, top.trans (Nat.zero_add _)⟩

/-- Every degree of a ready program is ready. -/
theorem of_generation (ready : Ready functions p)
    (expanded : (ofProgram functions p).run = some (.ok e)) {d : Nat}
    (at_d : e.generation d = .ok q) : Ready functions q := by
  obtain ⟨chained, rfl, -⟩ := chained_of_ofProgram expanded
  exact chained.induction ready (fun _ _ _ ready next => ready.next next)
    (generation_eq_ok_iff.1 at_d)

end Ready

section Checked

variable {programs : List Program} (table : functions = .ofPrograms programs)
  (lowerable : ∀ f ∈ programs, f.Lowerable) {d : Definition} {role : Role}
  (loaded : Program.ofDefinition d role = .ok p)
  (checked : CallGraph.check functions [p] = .ok ())

include table lowerable loaded checked

theorem ready_of_check : Ready functions p where
  callees := by
    rw [table]
    exact fun f mem => lowerable f (Functions.mem_of_mem_ofPrograms f mem)
  lowerable := Program.lowerable_of_ofDefinition loaded
  resolves := by
    rw [table] at checked ⊢
    exact CallGraph.resolves_of_check (Functions.filed_ofPrograms programs) checked

end Checked

end SLanguage.Expansion
