import SLanguage.Proofs.Expansion.Degrees
import SLanguage.Proofs.Lowering.Descent
import SLanguage.Proofs.Lowering.Failures
import SLanguage.Proofs.Lowering.Labels

/-! How one generation follows another. If everything that a program calls resolves, its
next generation is formed unless names run out, has one rank less, and calls what resolves
again. It keeps all labels, and jumps to `EXIT` if the program does. -/

namespace SLanguage

open Instruction (labelsOf mem_labelsOf labelsOf_append labelsOf_cons)

namespace Expansion

section Blocks

variable {functions : Functions} {is js : List Instruction} {nextId : Nat} {names after : Names}

theorem lowerAll_places (lowerable : ∀ f ∈ functions.items, f.Lowerable)
    (h : (lowerAll functions is nextId).drawn names = (.ok js, after)) :
    Lowering.Places names after (labelsOf is) js := by
  induction is generalizing nextId names js with
  | nil =>
    cases h
    exact ⟨[], .none rfl, .refl _⟩
  | cons i rest ih =>
    obtain ⟨block, mid, stamped, nextId', js', first, others, rfl, same⟩ := lowerAll_cons_eq_ok h
    have own := Lowering.lower_places lowerable first
    rw [labelsOf_cons]
    refine Lowering.Places.append ?_ (ih others)
    rwa [Lowering.Places, Instruction.labelsOf_eq_of_detached same]

theorem lowerAll_answered (lowerable : ∀ f ∈ functions.items, f.Lowerable)
    (inside : ∀ i ∈ is, i.label ≠ .exit)
    (h : (lowerAll functions is nextId).drawn names = (.ok js, after)) :
    ∀ b ∈ js, ∀ l, b.target? = some l →
      l = .empty ∨ (∃ i ∈ is, i.target? = some l) ∨ l ∈ labelsOf js := by
  induction is generalizing nextId names js with
  | nil =>
    cases h
    exact List.forall_mem_nil _
  | cons i rest ih =>
    obtain ⟨block, mid, stamped, nextId', js', first, others, rfl, same⟩ := lowerAll_cons_eq_ok h
    obtain ⟨own, inside⟩ := List.forall_mem_cons.1 inside
    obtain ⟨n, lowered, -⟩ :=
      Lowering.lower_eq_ok (fun _ f mem => (lowerable f mem).assembled) (fun _ => own) first
    rw [labelsOf_append]
    refine List.forall_mem_append.2 ⟨fun b mem l target => ?_, fun b mem l target => ?_⟩
    · have copied := List.mem_map_of_mem (f := Frame.detached) mem
      rw [same] at copied
      obtain ⟨b', mem', eq⟩ := List.mem_map.1 copied
      rw [Instruction.target?, ← (Frame.detached_eq eq).2.1] at target
      rw [Instruction.labelsOf_eq_of_detached same]
      refine (lowered.answered lowerable b' mem' l target).imp_right (Or.imp ?_ ?_)
      · exact fun jumps => ⟨i, List.mem_cons_self .., jumps⟩
      · exact List.mem_append_left _
    · refine (ih inside others b mem l target).imp_right (Or.imp ?_ ?_)
      · rintro ⟨j, occurs, jumps⟩
        exact ⟨j, List.mem_cons_of_mem _ occurs, jumps⟩
      · exact List.mem_append_right _

end Blocks

variable {functions : Functions} {p q : Program} {nextId : Nat}

section Lowerable

variable (callees : ∀ f ∈ functions.items, f.Lowerable) (lowerable : p.Lowerable)

include callees lowerable

/-- The instructions of the next generation can be assembled. The labels that were there
before are known to the supply, so they differ from those that are drawn. -/
theorem assembles {js : List Instruction} {after : Names}
    (h : (lowerAll functions p.instructions.toList nextId).drawn p.names = (.ok js, after))
    (header : Header) (degree : Nat) :
    ∃ q, Program.assemble header degree js after = .ok q := by
  obtain ⟨fresh, draws, placed⟩ := lowerAll_places callees h
  have apart : (labelsOf p.instructions.toList ++ fresh).Nodup := by
    refine List.nodup_append.2 ⟨Instruction.nodup_labelsOf_iff.2 lowerable.assembled.distinct,
      draws.nodup, ?_⟩
    rintro l mem _ drawn rfl
    obtain ⟨ne, i, occurs, own⟩ := mem_labelsOf.1 mem
    obtain ⟨n, rfl, -⟩ := draws.between l drawn
    exact draws.not_mem (lowerable.assembled.label_le_highestLabel occurs own) drawn
  refine Program.assemble_total header degree after
    (Instruction.nodup_labelsOf_iff.1 (placed.nodup_iff.2 apart)) fun b mem n target => ?_
  have carried : .numbered n ∈ labelsOf js := by
    obtain ⟨⟨⟩⟩ | ⟨i, occurs, jumps⟩ | own :=
      lowerAll_answered callees lowerable.inside h b mem _ target
    · refine placed.mem_iff.2 (List.mem_append_left _ ?_)
      exact lowerable.assembled.exists_position?_iff.1
        (lowerable.assembled.exists_position? occurs jumps)
    · exact own
  obtain ⟨ne, i, occurs, own⟩ := mem_labelsOf.1 carried
  obtain ⟨k, at_k⟩ := List.mem_iff_getElem?.1 occurs
  exact ⟨k, ne, i, at_k, own⟩

theorem nextGeneration_eq_error {e : LoweringError}
    (h : nextGeneration functions p nextId = .error e) :
    (∃ cause, e = .names cause) ∨
      ∃ name ∈ p.callees, functions.find? name = none ∧ e = .unknownFunction name := by
  unfold nextGeneration at h
  cases run : (lowerAll functions p.instructions.toList nextId).run p.names with
  | mk drafted after =>
    simp only [run] at h
    cases drafted with
    | error e' =>
      cases h
      refine lowerAll_failsOnly (E := fun e => (∃ cause, e = .names cause) ∨
        ∃ name ∈ p.callees, functions.find? name = none ∧ e = .unknownFunction name)
        (fun cause => .inl ⟨cause, rfl⟩) (fun i mem c op absent => .inr ?_) _ _ _ run
      refine ⟨c.function, Program.mem_callees.2 ⟨i, mem, c, ?_, ?_⟩, absent, rfl⟩
      · rw [op]
        rfl
      · exact List.mem_cons_self ..
    | ok js =>
      obtain ⟨q, built⟩ := assembles callees lowerable run p.header (p.degree + 1)
      change (Program.assemble p.header (p.degree + 1) js after).mapError _ = .error e at h
      rw [built] at h
      cases h

end Lowerable

/-- A program whose generations can be formed as long as there are names. -/
structure Ready (functions : Functions) (p : Program) : Prop where
  callees : ∀ f ∈ functions.items, f.Lowerable
  lowerable : p.Lowerable
  resolves : ∀ name ∈ p.callees, functions.Resolves name

namespace Ready

theorem assembled (ready : Ready functions p) : ∀ f ∈ functions.items, f.Assembled :=
  fun f mem => (ready.callees f mem).assembled

theorem nextGeneration_runsOut (ready : Ready functions p) {e : LoweringError}
    (h : nextGeneration functions p nextId = .error e) : ∃ cause, e = .names cause := by
  obtain runsOut | ⟨name, called, absent, -⟩ :=
    nextGeneration_eq_error ready.callees ready.lowerable h
  · exact runsOut
  · obtain ⟨f, found⟩ := (ready.resolves name called).exists_find?
    cases absent.symm.trans found

theorem exists_lays (ready : Ready functions p) (h : nextGeneration functions p nextId = .ok q) :
    ∃ a, Lays functions p q a :=
  Expansion.exists_lays ready.assembled ready.lowerable.assembled
    ready.lowerable.inside h

end Ready

namespace Lays

variable {a : Layout} (lays : Lays functions p q a)

include lays

/-- What is closed under calls and holds of what a program calls holds in the next generation. -/
theorem callees_closed {P : String → Prop}
    (closed : ∀ name f, P name → functions.find? name = some f → ∀ inner ∈ f.callees, P inner)
    (own : ∀ name ∈ p.callees, P name) : ∀ name ∈ q.callees, P name := by
  intro name called
  obtain ⟨b, mem, calls⟩ := Program.mem_callees.1 called
  obtain ⟨k, i, at_k, b', inside, same⟩ := lays.exists_block mem
  obtain ⟨n, lowered, -⟩ := lays.lowered at_k
  have occurs : i ∈ p.instructions.toList :=
    List.mem_of_getElem? (Array.getElem?_toList.trans at_k)
  refine lowered.calls closed (fun inner calls => own inner ?_) b' inside name ?_
  · exact Program.mem_callees.2 ⟨i, occurs, calls⟩
  · exact (Instruction.calls_of_op_eq (Frame.detached_eq same).2.1).1 calls

theorem rank_le_iff {body : String → Nat}
    (ranked : ∀ name ∈ p.callees, ∀ f, functions.find? name = some f →
      body name = f.rank body) {m : Nat} : q.rank body ≤ m ↔ p.rank body ≤ m + 1 := by
  have block {k : Nat} {i : Instruction} (at_k : p.instructions[k]? = some i) :
      (∀ b ∈ a.block k, b.rank body ≤ m) ↔ i.rank body ≤ m + 1 := by
    obtain ⟨n, lowered, gives⟩ := lays.lowered at_k
    have occurs : i ∈ p.instructions.toList :=
      List.mem_of_getElem? (Array.getElem?_toList.trans at_k)
    refine lowered.rank_le_iff lays.callees gives (lays.knows_at at_k) fun c calls => ?_
    exact ranked _ (Program.mem_callees.2 ⟨i, occurs, c, calls, List.mem_cons_self ..⟩)
  have alike {b b' : Instruction} (same : Frame.detached b = Frame.detached b') :
      b.rank body = b'.rank body := by
    obtain ⟨subject, op, -⟩ := Frame.detached_eq same
    rw [Instruction.rank, Instruction.rank, subject, op]
  rw [Program.rank_le_iff, Program.rank_le_iff]
  constructor
  · intro bound i mem
    obtain ⟨k, at_k⟩ := List.mem_iff_getElem?.1 mem
    rw [Array.getElem?_toList] at at_k
    refine (block at_k).1 fun b inside => ?_
    obtain ⟨b', occurs, same⟩ := lays.exists_of_block at_k inside
    exact alike same ▸ bound b' occurs
  · intro bound b mem
    obtain ⟨k, i, at_k, b', inside, same⟩ := lays.exists_block mem
    have occurs : i ∈ p.instructions.toList :=
      List.mem_of_getElem? (Array.getElem?_toList.trans at_k)
    exact alike same ▸ (block at_k).2 (bound i occurs) b' inside

/-- A round in which a call is lowered uses work variables up. -/
theorem highestWork_lt (calls : p.callees ≠ []) :
    p.names.highestWork < q.names.highestWork ∧ p.names.highestWork < Serial.last := by
  obtain ⟨name, called⟩ := List.exists_mem_of_ne_nil _ calls
  obtain ⟨i, mem, c, own, -⟩ := Program.mem_callees.1 called
  obtain ⟨k, at_k⟩ := List.mem_iff_getElem?.1 mem
  rw [Array.getElem?_toList] at at_k
  obtain ⟨n, lowered, gives⟩ := lays.lowered at_k
  have drawn := lowered.pos_of_call own
  have lt : k < p.size := (Array.getElem?_eq_some_iff.1 at_k).1
  have before := lays.highestWork_mono (Nat.zero_le k) (Nat.le_of_lt lt)
  have after := lays.highestWork_mono (Nat.succ_le_of_lt lt) (Nat.le_refl _)
  rw [Nat.succ_eq_add_one] at after
  have last := lays.last
  have highest := gives.highest
  have enough := gives.last
  rw [lays.first] at before
  omega

end Lays

theorem Ready.next (ready : Ready functions p) (h : nextGeneration functions p nextId = .ok q) :
    Ready functions q := by
  obtain ⟨a, lays⟩ := ready.exists_lays h
  refine ⟨ready.callees, ⟨lays.target, lays.label_ne_exit⟩, ?_⟩
  exact lays.callees_closed (fun _ _ resolves found => resolves.of_found found) ready.resolves

end Expansion

end SLanguage
