import SLanguage.Proofs.CallGraph.Reports
import SLanguage.Proofs.Expansion.Termination

/-! Expansion without a check of the calls. It comes to an end in every table: a round that
lowers a call uses a work variable up, and once no calls are left there are three rounds at
most. It succeeds only where all calls resolve. So a program whose calls lead into a cycle
is refused, once the names have run out or a function turns out to be unknown. -/

namespace SLanguage

variable {functions : Functions}

/-- A function that is called in an argument is called by one of the calls among them. -/
theorem Argument.exists_call_of_mem {as : List Argument} {name : String}
    (mem : name ∈ functionsOf as) : ∃ c : Call, .call c.function c.arguments ∈ as ∧
      name ∈ c.functions := by
  induction as with
  | nil => cases mem
  | cons a as ih =>
    rw [functionsOf] at mem
    obtain own | later := List.mem_append.1 mem
    · cases a with
      | var v => cases own
      | call f inner => exact ⟨⟨f, inner⟩, List.mem_cons_self .., own⟩
    · obtain ⟨c, occurs, named⟩ := ih later
      exact ⟨c, List.mem_cons_of_mem _ occurs, named⟩

/-- What can be afforded is known down to functions that call none. -/
theorem Call.Affordable.resolves {c : Call} (affordable : c.Affordable functions) :
    ∀ name ∈ c.functions, functions.Resolves name := by
  induction affordable with
  | @intro c callee found names arguments body argument_ih body_ih =>
    intro name mem
    obtain rfl | nested := List.mem_cons.1 mem
    · refine .intro found fun inner called => ?_
      obtain ⟨i, occurs, c', calls, named⟩ := Program.mem_callees.1 called
      exact body_ih i c' occurs calls inner named
    · obtain ⟨inner, occurs, named⟩ := Argument.exists_call_of_mem nested
      exact argument_ih inner occurs name named

namespace Expansion

variable {e e' : Expansion} {p q : Program} {nextId : Nat}

/-- There are more rounds than work variables that are left, or there are no calls and as
many rounds as the rank. -/
def Allows (rounds : Nat) (p : Program) : Prop :=
  3 + (Serial.last - p.names.highestWork) ≤ rounds ∨
    p.callees = [] ∧ p.rank (fun _ => 0) ≤ rounds

section Lowerable

variable (callees : ∀ f ∈ functions.items, f.Lowerable)

include callees

theorem exists_lays_of_lowerable (lowerable : p.Lowerable)
    (next : nextGeneration functions p nextId = .ok q) :
    q.Lowerable ∧ ∃ a, Lays functions p q a := by
  obtain ⟨a, lays⟩ := exists_lays (fun f mem => (callees f mem).assembled) lowerable.assembled
    lowerable.inside next
  exact ⟨⟨lays.target, lays.label_ne_exit⟩, a, lays⟩

theorem allows_next (lowerable : p.Lowerable)
    (next : nextGeneration functions p nextId = .ok q) {rounds : Nat}
    (allows : Allows (rounds + 1) p) : Allows rounds q := by
  obtain ⟨-, a, lays⟩ := exists_lays_of_lowerable callees lowerable next
  by_cases silent : p.callees = []
  · -- without calls the ranks of functions do not matter
    have none : ∀ name ∈ p.callees, False := by
      rw [silent]
      exact List.forall_mem_nil _
    have rank : p.rank (fun _ => 0) ≤ rounds + 1 := by
      obtain left | ⟨-, rank⟩ := allows
      · exact Nat.le_trans (Program.rank_le_three silent) (by omega)
      · exact rank
    have still := lays.callees_closed (P := fun _ => False) (fun _ _ no => no.elim) none
    refine .inr ⟨List.eq_nil_iff_forall_not_mem.2 still, ?_⟩
    exact (lays.rank_le_iff fun name called => (none name called).elim).2 rank
  · obtain left | ⟨no, -⟩ := allows
    · obtain ⟨more, last⟩ := lays.highestWork_lt silent
      exact .inl (by omega)
    · exact absurd no silent

/-- No function answers to the name, which is called by a program that this one leads to. -/
def Missing (functions : Functions) (p : Program) (name : String) : Prop :=
  functions.find? name = none ∧
    ∃ f, Relation.ReflTransGen functions.Calls p f ∧ name ∈ f.callees

/-- The rounds end, be it with names that have run out or with a function that is unknown. The
induction is on the rounds, and what is called in each of them is called from the program on. -/
theorem grow_ends {root : Program} {rounds : Nat} (lowerable : e.latest.Lowerable)
    (allows : Allows rounds e.latest)
    (reached : ∀ name ∈ e.latest.callees,
      ∃ f, Relation.ReflTransGen functions.Calls root f ∧ name ∈ f.callees) :
    (∃ cause, (grow functions rounds e).run = some (.error (.names cause))) ∨
      (∃ name, Missing functions root name ∧
        (grow functions rounds e).run = some (.error (.unknownFunction name))) ∨
      ∃ e', (grow functions rounds e).run = some (.ok e') := by
  induction rounds generalizing e with
  | zero =>
    have none : e.latest.rank (fun _ => 0) = 0 := by
      obtain left | ⟨-, rank⟩ := allows
      · omega
      · exact Nat.le_zero.1 rank
    rw [grow, if_pos (Program.rank_eq_zero_iff.1 none)]
    exact .inr (.inr ⟨e, rfl⟩)
  | succ rounds ih =>
    rw [grow]
    cases basic : e.latest.isBasic with
    | true => exact .inr (.inr ⟨e, rfl⟩)
    | false =>
      cases advanced : e.advance functions with
      | error cause =>
        obtain ⟨names, rfl⟩ | ⟨name, called, absent, rfl⟩ :=
          nextGeneration_eq_error callees lowerable (advance_eq_error advanced)
        · exact .inl ⟨names, rfl⟩
        · exact .inr (.inl ⟨name, ⟨absent, reached name called⟩, rfl⟩)
      | ok e' =>
        obtain ⟨next, -⟩ := latest_of_advance advanced
        obtain ⟨lowerable', a, lays⟩ := exists_lays_of_lowerable callees lowerable next
        refine ih lowerable' (allows_next callees lowerable next allows) ?_
        refine lays.callees_closed (fun name f reaches found inner called => ?_) reached
        obtain ⟨g, path, named⟩ := reaches
        exact ⟨f, path.tail ⟨name, named, found⟩, called⟩

/-- The allowed rounds are enough in every table, also where calls form a cycle. -/
theorem ofProgram_ends (lowerable : p.Lowerable) :
    (∃ cause, (ofProgram functions p).run = some (.error (.names cause))) ∨
      (∃ name, Missing functions p name ∧
        (ofProgram functions p).run = some (.error (.unknownFunction name))) ∨
      ∃ e, (ofProgram functions p).run = some (.ok e) :=
  grow_ends (e := base p) callees lowerable (.inl (Nat.le_refl _))
    fun _ called => ⟨p, .refl, called⟩

/-- What has been expanded calls only what resolves, and has as many degrees as its rank. -/
theorem resolves_of_ofProgram (lowerable : p.Lowerable)
    (expanded : (ofProgram functions p).run = some (.ok e)) :
    (∀ name ∈ p.callees, functions.Resolves name) ∧ e.topDegree = p.rank functions.rank := by
  obtain ⟨chained, rfl, basic⟩ := chained_of_ofProgram expanded
  have complete : e.Complete functions :=
    ⟨fun f mem => (callees f mem).assembled, lowerable.assembled, lowerable.inside, chained,
      basic⟩
  have resolves : ∀ name ∈ e.loaded.callees, functions.Resolves name := by
    intro name called
    obtain ⟨i, mem, c, calls, named⟩ := Program.mem_callees.1 called
    exact (complete.affordable (d := 0) rfl i mem c calls).resolves name named
  refine ⟨resolves, ?_⟩
  have ready : Ready functions e.loaded := ⟨callees, lowerable, resolves⟩
  obtain ⟨cause, failed⟩ | ⟨e', expanded', top⟩ := ready.expands
  · cases expanded.symm.trans failed
  · cases expanded.symm.trans expanded'
    exact top

/-- What can be expanded passes the check of the call graph. -/
theorem check_of_ofProgram (filed : functions.Filed Program.keys)
    (apart : CallGraph.Apart functions p) (lowerable : p.Lowerable)
    (expanded : (ofProgram functions p).run = some (.ok e)) :
    CallGraph.check functions [p] = .ok () :=
  CallGraph.checkFrom_eq_ok filed (List.forall_mem_singleton.2 apart)
    (List.forall_mem_singleton.2 (resolves_of_ofProgram callees lowerable expanded).1)

/-- A program whose calls lead into a cycle has no degrees. All its calls can be followed, so
it is the names that run out. -/
theorem runsOut_of_cycle (lowerable : p.Lowerable)
    (known : ∀ f, Relation.ReflTransGen functions.Calls p f → ∀ name ∈ f.callees,
      ∃ g, functions.find? name = some g) {f : Program}
    (reaches : Relation.ReflTransGen functions.Calls p f)
    (cycle : Relation.TransGen functions.Calls f f) :
    ∃ cause, (ofProgram functions p).run = some (.error (.names cause)) := by
  obtain runsOut | ⟨name, ⟨absent, g, path, called⟩, -⟩ | ⟨e, expanded⟩ :=
    ofProgram_ends callees lowerable
  · exact runsOut
  · obtain ⟨h, found⟩ := known g path name called
    cases absent.symm.trans found
  · have resolves := (resolves_of_ofProgram callees lowerable expanded).1
    have resolves' := Functions.Resolves.of_reaches resolves reaches
    exact absurd cycle (Functions.acyclic_of_callees resolves')

end Lowerable

/-- A function that only calls itself. -/
def selfCalling : Program :=
  CallGraph.calling ⟨"A", "A", .function⟩ ⟨"A", []⟩

theorem runsOut_selfCalling :
    ∃ cause, (ofProgram (.ofPrograms [selfCalling]) selfCalling).run =
      some (.error (.names cause)) := by
  have lowerable : selfCalling.Lowerable :=
    ⟨⟨selfCalling.header, 0, selfCalling.instructions.toList, {}, rfl⟩, by decide⟩
  have found : (Functions.ofPrograms [selfCalling]).find? "A" = some selfCalling := rfl
  have called : "A" ∈ selfCalling.callees := by
    rw [selfCalling, CallGraph.callees_calling]
    exact List.mem_singleton_self _
  have own (f : Program) (reaches : Relation.ReflTransGen
      (Functions.ofPrograms [selfCalling]).Calls selfCalling f) : f = selfCalling := by
    cases reaches with
    | refl => rfl
    | tail _ last =>
      obtain ⟨name, -, at_name⟩ := last
      exact List.mem_singleton.1 (Functions.mem_of_mem_ofPrograms _
        (Functions.mem_items_of_find? at_name))
  refine runsOut_of_cycle
    (fun f mem => List.mem_singleton.1 (Functions.mem_of_mem_ofPrograms f mem) ▸ lowerable)
    lowerable (fun f reaches name occurs => ?_) .refl (.single ⟨"A", called, found⟩)
  rw [own f reaches, selfCalling, CallGraph.callees_calling] at occurs
  exact ⟨selfCalling, List.mem_singleton.1 occurs ▸ found⟩

end Expansion

end SLanguage
