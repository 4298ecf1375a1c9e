import SLanguage.Proofs.Expansion.Degrees
import SLanguage.Proofs.Lowering.Composing
import SLanguage.Proofs.Supply

/-! The supplies of programs. Lowering does nothing to a supply but ask it for names, so the past
of a program's supply goes on from generation to generation. Whatever is handed out next is in
none of them. -/

namespace SLanguage

namespace Drafting

variable {α β : Type}

/-- The work asks for names, and does nothing else to the supply. -/
def Asks (x : Drafting α) : Prop :=
  ∀ names, ∃ requests, (x.drawn names).2 = names.afterAll requests

namespace Asks

theorem pure (a : α) : Asks (pure a : Drafting α) :=
  fun _ => ⟨[], rfl⟩

theorem throw (e : LoweringError) : Asks (throw e : Drafting α) :=
  fun _ => ⟨[], rfl⟩

theorem bind {x : Drafting α} {f : α → Drafting β} (first : Asks x) (rest : ∀ a, Asks (f a)) :
    Asks (x >>= f) := by
  intro names
  obtain ⟨requests, after⟩ := first names
  rw [drawn_bind]
  cases drawn : x.drawn names with
  | mk outcome mid =>
    obtain rfl : mid = names.afterAll requests := by rw [← after, drawn]
    cases outcome with
    | error e => exact ⟨requests, rfl⟩
    | ok a =>
      obtain ⟨requests', after'⟩ := rest a (names.afterAll requests)
      refine ⟨requests ++ requests', after'.trans ?_⟩
      rw [Names.afterAll, Names.afterAll, Names.afterAll, List.foldl_append]

theorem label : Asks Drafting.label := by
  intro names
  refine ⟨[.label], ?_⟩
  unfold Drafting.label Drawing.label
  rw [drawn_bind, drawn_get]
  simp only [Names.afterAll, List.foldl_cons, List.foldl_nil, Names.next, Names.ask]
  cases names.drawLabel <;> rfl

theorem work : Asks Drafting.work := by
  intro names
  refine ⟨[.work], ?_⟩
  unfold Drafting.work Drawing.work
  rw [drawn_bind, drawn_get]
  simp only [Names.afterAll, List.foldl_cons, List.foldl_nil, Names.next, Names.ask]
  cases names.drawWork <;> rfl

theorem composes : Composes Asks :=
  ⟨pure, bind, label, work⟩

end Asks

end Drafting

namespace Program

/-- Programs that are loaded, assembled or expanded, with the past of their supply. A generation
goes on with the supply of the one before: the names that it is lowered with come next, then those
that it uses. -/
inductive Supplied : Program → List Name → Prop where
  | loaded {header : Header} {records : List Record} {p : Program}
      (load : load header records = .ok p) : Supplied p p.mentioned
  | assembled {names : Names} {past : List Name} {header : Header} {degree : Nat}
      {is : List Instruction} {p : Program} (known : names.HasPast past)
      (assemble : assemble header degree is names = .ok p) : Supplied p (past ++ p.mentioned)
  | expanded {p q : Program} {past : List Name} {functions : Functions} {nextId : Nat}
      {js : List Instruction} {requests : List Names.Request} (before : Supplied p past)
      (lowered : (Expansion.lowerAll functions p.instructions.toList nextId).drawn p.names =
        (.ok js, p.names.afterAll requests))
      (assemble : assemble p.header (p.degree + 1) js (p.names.afterAll requests) = .ok q) :
      Supplied q (past ++ p.names.handed requests ++ q.mentioned)

namespace Supplied

variable {p q : Program} {past : List Name}

theorem hasPast (supplied : p.Supplied past) : p.names.HasPast past := by
  induction supplied with
  | loaded load =>
    obtain ⟨is, -, assembled⟩ := load_eq_ok load
    exact Names.HasPast.of_assemble .new assembled
  | assembled known assemble => exact known.of_assemble assemble
  | expanded before lowered assemble ih => exact (ih.afterAll _).of_assemble assemble

theorem mentioned_subset (supplied : p.Supplied past) : p.mentioned ⊆ past := by
  cases supplied with
  | loaded load => exact List.Subset.refl _
  | assembled known assemble => exact List.subset_append_right _ _
  | expanded before lowered assemble => exact List.subset_append_right _ _

theorem next (supplied : p.Supplied past) {functions : Functions} {nextId : Nat}
    (made : Expansion.nextGeneration functions p nextId = .ok q) :
    ∃ later, q.Supplied (past ++ later) := by
  obtain ⟨js, after, lowered, assembled⟩ := Expansion.nextGeneration_eq_ok made
  have asks : Drafting.Asks (Expansion.lowerAll functions p.instructions.toList nextId) :=
    Drafting.Asks.composes.lowerAll fun _ _ _ _ _ => .throw _
  obtain ⟨requests, asked⟩ := asks p.names
  rw [lowered] at asked
  subst asked
  have supplied' := supplied.expanded lowered assembled
  rw [List.append_assoc] at supplied'
  exact ⟨_, supplied'⟩

theorem generation (supplied : p.Supplied past) {functions : Functions} {e : Expansion}
    (expanded : (Expansion.ofProgram functions p).run = some (.ok e)) {d : Nat}
    (at_d : e.generation d = .ok q) : ∃ later, q.Supplied (past ++ later) := by
  obtain ⟨chained, rfl, -⟩ := Expansion.chained_of_ofProgram expanded
  refine chained.induction (motive := fun q => ∃ later, q.Supplied (past ++ later)) ?_ ?_
    (Expansion.generation_eq_ok_iff.1 at_d)
  · exact ⟨[], by rwa [List.append_nil]⟩
  · rintro p q nextId ⟨later, before⟩ made
    obtain ⟨later', after⟩ := before.next made
    rw [List.append_assoc] at after
    exact ⟨_, after⟩

/-- What a supply has handed out is in no instruction. -/
theorem unused (supplied : p.Supplied past) {requests : List Names.Request} {name : Name}
    (handed : name ∈ p.names.handed requests) :
    ∀ i ∈ p.instructions.toList, name ∉ i.names := fun _ mem uses =>
  (supplied.hasPast.supplies requests).fresh name handed
    (supplied.mentioned_subset (List.mem_flatMap_of_mem mem uses))

end Supplied

/-- Whatever names are asked of the supply of a program, those that it hands out come in order
and are new to its past and to every instruction. A kind of names is refused just from where its
last name has been seen or handed out, whatever is asked of the other kind. All this passes to
every degree, with a past that goes on. -/
theorem supply_hands_out_fresh {p : Program} {past : List Name} (supplied : p.Supplied past) :
    (∀ requests, p.names.Supplies past requests ∧
      (∀ l, .label l ∈ p.names.handed requests →
        ∀ i ∈ p.instructions.toList, i.label ≠ l ∧ i.target? ≠ some l) ∧
      ∀ v, .var v ∈ p.names.handed requests → ∀ i ∈ p.instructions.toList, v ∉ i.vars) ∧
    ∀ functions e d q, (Expansion.ofProgram functions p).run = some (.ok e) →
      e.generation d = .ok q → ∃ later, q.Supplied (past ++ later) := by
  refine ⟨fun requests => ⟨supplied.hasPast.supplies requests, ?_, ?_⟩, ?_⟩
  · intro l handed i mem
    have unused := supplied.unused handed i mem
    rwa [Instruction.label_mem_names, not_or] at unused
  · intro v handed i mem
    have unused := supplied.unused handed i mem
    rwa [Instruction.var_mem_names] at unused
  · intro functions e d q expanded at_d
    exact supplied.generation expanded at_d

/-- One name of either kind is left beside those of this program. -/
def nearlyOut : List Record :=
  [{ name := "INCREASE", label? := some "L4294967294", subject := "z4294967294" }]

def lastButOne : Serial where
  val := 4294967294

def leavingOne : Program where
  header := ⟨"out", "out", .main⟩
  degree := 0
  instructions := #[{
    subject := .work lastButOne, op := .increase, label := .numbered lastButOne, number := 1 }]
  positions := (∅ : Std.TreeMap Label Nat).insert (.numbered lastButOne) 0
  inputs := .ofList ([] : List Variable)
  works := .ofList [Variable.work lastButOne]
  names := { highestLabel := 4294967294, highestWork := 4294967294 }

theorem load_nearlyOut : load ⟨"out", "out", .main⟩ nearlyOut = .ok leavingOne := rfl

theorem supply_hands_out_fresh_leavingOne :
    load ⟨"out", "out", .main⟩ nearlyOut = .ok leavingOne ∧
    leavingOne.names.replies [.label, .work, .label, .work] =
      [.ok (.label (.numbered .greatest)), .ok (.var (.work .greatest)),
        .error .labels, .error .workVariables] ∧
    leavingOne.names.Supplies leavingOne.mentioned [.label, .work, .label, .work] :=
  ⟨load_nearlyOut, rfl, ((supply_hands_out_fresh (.loaded load_nearlyOut)).1 _).1⟩

end Program

end SLanguage
