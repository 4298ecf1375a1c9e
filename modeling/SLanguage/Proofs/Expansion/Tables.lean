import SLanguage.Proofs.Expansion.Termination

/-! Expansion in a growing table. What an expansion takes from the table of functions are
the functions that the program calls, also where they call others. If their names resolve,
a larger table has the same functions for them, and the expansion stays what it is. -/

namespace SLanguage

variable {functions larger : Functions} {p : Program}

/-- A block depends on the function that is called and on no other. -/
theorem Lowering.lower_congr {i : Instruction}
    (same : ∀ c, i.op = .quote c → larger.find? c.function = functions.find? c.function) :
    lower larger i = lower functions i := by
  cases op : i.op with
  | quote c => simp only [lower, op, calling, Frame.splice, same c op]
  | _ => simp only [lower, op]

namespace Expansion

theorem lowerAll_congr {is : List Instruction} {nextId : Nat}
    (same : ∀ i ∈ is, ∀ c, i.op = .quote c →
      larger.find? c.function = functions.find? c.function) :
    lowerAll larger is nextId = lowerAll functions is nextId := by
  induction is generalizing nextId with
  | nil => rfl
  | cons i rest ih =>
    obtain ⟨own, others⟩ := List.forall_mem_cons.1 same
    simp only [lowerAll, Lowering.lower_congr own, ih others]

namespace Ready

variable (grown : functions.Extends larger)

include grown

theorem nextGeneration_eq (ready : Ready functions p) (nextId : Nat) :
    nextGeneration larger p nextId = nextGeneration functions p nextId := by
  unfold nextGeneration
  rw [lowerAll_congr fun i mem c op => ?_]
  have called : c.function ∈ p.callees :=
    Program.mem_callees.2 ⟨i, mem, c, by rw [op]; rfl, List.mem_cons_self ..⟩
  obtain ⟨f, found⟩ := (ready.resolves _ called).exists_find?
  exact (grown _ f found).trans found.symm

theorem grow_eq {e : Expansion} (ready : Ready functions e.latest) (rounds : Nat) :
    grow larger rounds e = grow functions rounds e := by
  induction rounds generalizing e with
  | zero => rw [grow, grow]
  | succ rounds ih =>
    have same : e.advance larger = e.advance functions := by
      rw [advance, advance, ready.nextGeneration_eq grown]
    rw [grow, grow, same]
    congr 1
    cases advanced : e.advance functions with
    | error cause =>
      have stopped : Attempt.ofExcept (.error cause) =
        (Attempt.stop (some cause) : Attempt LoweringError Expansion) := rfl
      rw [stopped, Attempt.stop_bind, Attempt.stop_bind]
    | ok e' =>
      have given : Attempt.ofExcept (.ok e') = (pure e' : Attempt LoweringError Expansion) := rfl
      rw [given, pure_bind, pure_bind]
      exact ih (ready.next (latest_of_advance advanced).1)

/-- A program whose calls resolve has the same degrees in every larger table. -/
theorem ofProgram_eq (ready : Ready functions p) :
    ofProgram larger p = ofProgram functions p :=
  ready.grow_eq (e := base p) grown (roundLimit p)

end Ready

end Expansion

end SLanguage
