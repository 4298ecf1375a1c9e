import SLanguage.Proofs.Calls.Safety
import SLanguage.Proofs.Expansion.Generations
import SLanguage.Proofs.Records

/-! Reloading a generation. What the rules write can be said in records, if what they lower and
the callees that they splice in can. So the definition of any generation is loaded again, as
the same instructions. -/

namespace SLanguage

open Lowering

theorem Call.Readable.rename {c : Call} (readable : c.Readable) (var : Variable → Variable) :
    (c.rename var).Readable where
  trimmed := readable.trimmed
  named := readable.named
  inner := by
    rw [Call.rename, Argument.functionsOf_rename]
    exact readable.inner

/-- A call among the arguments of another. -/
theorem Call.Readable.argument {c : Call} (readable : c.Readable) {f : String}
    {as : List Argument} (mem : .call f as ∈ c.arguments) : (⟨f, as⟩ : Call).Readable := by
  have inner : ∀ g ∈ f :: Argument.functionsOf as, ArgumentToken.IsWord g :=
    fun g named => readable.inner g (Argument.functions_subset mem named)
  obtain ⟨own, others⟩ := List.forall_mem_cons.1 inner
  exact ⟨own.trimmed, own.nonempty, others⟩

theorem Operation.writable_of_plain {op : Operation} (stays : op.target? = none)
    (silent : op.call? = none) : op.Writable := by
  refine ⟨fun target => ?_, fun _ calls => ?_⟩
  · cases stays.symm.trans target
  · cases silent.symm.trans calls

theorem Operation.Writable.rename {op : Operation} (writable : op.Writable)
    (var : Variable → Variable) {label : Label → Label}
    (kept : ∀ l, op.target? = some l → l ≠ .empty → label l ≠ .empty) :
    (op.rename var label).Writable := by
  obtain ⟨jumps, calls⟩ := writable
  refine ⟨fun target => ?_, fun c called => ?_⟩
  · rw [Operation.target?_rename] at target
    obtain ⟨l, own, eq⟩ := Option.map_eq_some_iff.1 target
    exact kept l own (fun empty => jumps (empty ▸ own)) eq
  · rw [Operation.call?_rename] at called
    obtain ⟨c', own, rfl⟩ := Option.map_eq_some_iff.1 called
    exact (calls c' own).rename var

namespace Lowering

section Blocks

variable {functions : Functions} {names : Names} {v : Variable} {op : Operation}
  {i : Instruction} {block : List Instruction} {n : Nat}

theorem writable_body {c : Call} {callee : Program}
    (writable : ∀ i ∈ callee.instructions.toList, i.op.Writable)
    (labels : (Frame.moved callee .redirect).length = 0 ∨
      names.highestLabel + (Frame.moved callee .redirect).length ≤ Serial.last) :
    ∀ b ∈ (Inlined.frame c callee names).body, b.op.Writable := by
  intro b mem
  obtain ⟨i, occurs, rfl⟩ := List.mem_map.1 mem
  refine (writable i occurs).rename _ fun l _ ne => ?_
  by_cases moved : l ∈ Frame.moved callee .redirect
  · obtain ⟨k, renamed, -⟩ := Frame.label_of_moved (c := c) labels moved
    rw [renamed]
    exact Label.noConfusion
  · rw [Frame.label_of_not_moved moved]
    exact ne

theorem Drafted.writable
    (callees : ∀ f ∈ functions.items, ∀ i ∈ f.instructions.toList, i.op.Writable)
    (drafted : Drafted functions names v op block n) (own : op.Writable) :
    ∀ b ∈ block, b.op.Writable := by
  have plain {b : Instruction} (stays : b.op.target? = none) (silent : b.op.call? = none) :
      b.op.Writable := Operation.writable_of_plain stays silent
  obtain ⟨jumps, calls⟩ := own
  cases drafted with
  | countingUp =>
    refine List.forall_mem_cons.2 ⟨plain rfl rfl, fun b mem => ?_⟩
    rw [List.eq_of_mem_replicate mem]
    exact plain rfl rfl
  | testingConstant d =>
    refine List.forall_mem_cons.2 ⟨plain rfl rfl, List.forall_mem_append.2 ⟨?_, ?_⟩⟩
    · exact forall_mem_countingDown (P := fun b => b.op.Writable)
        (by simp [Operation.Writable, jumpZero, Operation.target?, Operation.call?])
        (plain rfl rfl) _
    · simp_all [Operation.Writable, jumpNotZero, goto, labelled, neutral, Operation.target?,
        Operation.call?]
  | @calling c callee found labels =>
    have readable := calls c rfl
    refine forall_mem_callingBlock.2 ⟨plain rfl rfl, forall_mem_bindInputs ?_ ?_, ?_,
      writable_body (callees callee (Functions.mem_items_of_find? found)) labels, plain rfl rfl⟩
    · exact fun slot _ => plain rfl rfl
    · intro slot _ a mem
      cases a with
      | var w => exact plain rfl rfl
      | call f as =>
        refine ⟨fun target => (by cases target), ?_⟩
        rintro _ ⟨rfl⟩
        exact readable.argument mem
    · exact fun z _ => plain rfl rfl
  | _ =>
    simp_all [Operation.Writable, jumpingBlock, copyingBlock, testingZeroBlock,
      testingVariableBlock, testingCallBlock, labelled, neutral, increase, decrease, zero, assign,
      goto, jumpZero, jumpNotZero, Operation.target?, Operation.call?]

theorem Lowered.writable
    (callees : ∀ f ∈ functions.items, f.Assembled ∧ ∀ i ∈ f.instructions.toList, i.op.Writable)
    (own : i.Writable) (lowered : Lowered functions names i block n) :
    ∀ b ∈ block, b.Writable := by
  have inside := lowered.label_ne_exit (fun f mem => (callees f mem).1) own.inside
  have ops : ∀ b ∈ block, b.op.Writable := by
    cases lowered with
    | basic => exact List.forall_mem_singleton.2 own.op
    | clearing op k label =>
      simp [clearingBlock, Operation.Writable, labelled, decrease, jumpNotZero, Operation.target?,
        Operation.call?]
    | synthetic drafted =>
      have others := drafted.writable (fun f mem => (callees f mem).2) own.op
      obtain ⟨first, rest, rfl, unlabelled⟩ := drafted.exists_cons
      rw [withEntry_cons _ rest unlabelled]
      exact List.forall_mem_cons.2 (List.forall_mem_cons.1 others)
  exact fun b mem => ⟨inside b mem, ops b mem⟩

end Blocks

end Lowering

namespace Expansion

variable {functions : Functions} {p q : Program} {nextId : Nat}

theorem lowerAll_writable {is js : List Instruction} {names after : Names}
    (callees : ∀ f ∈ functions.items, f.Writable) (writable : ∀ i ∈ is, i.Writable)
    (h : (lowerAll functions is nextId).drawn names = (.ok js, after)) :
    ∀ j ∈ js, j.Writable := by
  induction is generalizing nextId names js with
  | nil =>
    cases h
    exact List.forall_mem_nil _
  | cons i rest ih =>
    obtain ⟨block, mid, stamped, nextId', js', first, others, rfl, same⟩ := lowerAll_cons_eq_ok h
    obtain ⟨own, writable⟩ := List.forall_mem_cons.1 writable
    obtain ⟨n, lowered, -⟩ :=
      Lowering.lower_eq_ok (fun _ f mem => (callees f mem).assembled) (fun _ => own.inside) first
    have block_writable := lowered.writable (fun f mem => ⟨(callees f mem).assembled,
      fun i occurs => ((callees f mem).instructions i occurs).op⟩) own
    refine List.forall_mem_append.2 ⟨fun b mem => ?_, ih writable others⟩
    have copied := List.mem_map_of_mem (f := Frame.detached) mem
    rw [same] at copied
    obtain ⟨b', mem', eq⟩ := List.mem_map.1 copied
    exact Instruction.writable_congr eq (block_writable b' mem')

/-- What can be said in records is lowered to what can be said in records. -/
theorem writable_next (callees : ∀ f ∈ functions.items, f.Writable) (writable : p.Writable)
    (made : nextGeneration functions p nextId = .ok q) : q.Writable ∧ q.header = p.header := by
  obtain ⟨js, after, drawn, built⟩ := nextGeneration_eq_ok made
  have instructions := lowerAll_writable callees writable.instructions drawn
  have assembled : q.Assembled := ⟨_, _, _, _, built⟩
  obtain ⟨positions, -, -, rfl⟩ := Program.assemble_eq_ok built
  refine ⟨⟨assembled, fun j mem => ?_⟩, rfl⟩
  obtain ⟨k, i, at_k, rfl⟩ := Program.mem_numbered.1 mem
  have own := instructions i (List.mem_of_getElem? at_k)
  exact ⟨own.inside, own.op⟩

/-- Every degree can be said in records if the program as loaded can. -/
theorem Chained.writable {e : Expansion} (chained : e.Chained functions)
    (callees : ∀ f ∈ functions.items, f.Writable) (loaded : e.loaded.Writable) {d : Nat}
    (at_d : e.generation? d = some p) : p.Writable ∧ p.header = e.loaded.header :=
  chained.induction (motive := fun p => p.Writable ∧ p.header = e.loaded.header) ⟨loaded, rfl⟩
    (fun _ _ _ kept made => by
      obtain ⟨writable, header⟩ := writable_next callees kept.1 made
      exact ⟨writable, header.trans kept.2⟩) at_d

end Expansion

/-- Programs that were loaded, and the generations that expanding them came to among callees
of the same sort. -/
inductive Program.Recorded : Program → Prop where
  | loaded {header : Header} {records : List Record} {p : Program}
      (loaded : Program.load header records = .ok p) : Recorded p
  | generation {functions : Functions} {p q : Program} {e : Expansion} {degree : Nat}
      (callees : ∀ f ∈ functions.items, Recorded f) (recorded : Recorded p)
      (expanded : (Expansion.ofProgram functions p).run = some (.ok e))
      (at_degree : e.generation degree = .ok q) : Recorded q

theorem Program.Recorded.writable {p : Program} (recorded : p.Recorded) : p.Writable := by
  induction recorded with
  | loaded loaded => exact writable_of_load loaded
  | generation _ _ expanded at_degree callees ih =>
    obtain ⟨chained, rfl, -⟩ := Expansion.chained_of_ofProgram expanded
    exact (chained.writable callees ih (Expansion.generation_eq_ok_iff.1 at_degree)).1

/-- A record as it is written once it has been read. -/
def Record.normal (r : Record) : Except Refusal Record :=
  Instruction.record <$> r.instruction

theorem Program.Assembled.number_eq {p : Program} (assembled : p.Assembled) {k : Nat}
    {i : Instruction} (at_k : p.instructions[k]? = some i) : i.number = k + 1 := by
  obtain ⟨header, degree, instructions, names, built⟩ := assembled
  rw [Program.getElem?_of_assemble built] at at_k
  obtain ⟨j, -, rfl⟩ := Option.map_eq_some_iff.1 at_k
  rfl

namespace Expansion

end Expansion

end SLanguage
