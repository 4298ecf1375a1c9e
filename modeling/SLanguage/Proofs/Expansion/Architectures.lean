import SLanguage.Proofs.Expansion.Termination

/-! Architectures of generations. A rule writes no instruction of a newer architecture than the
one it lowers, and the body of a callee takes the place of a call, which needs the newest anyway.
So no generation needs a stronger architecture than one before it, and the last one needs the
weakest. -/

namespace SLanguage

namespace Architecture

variable {a b c : Architecture}

@[simp] theorem le_refl (a : Architecture) : a ≤ a :=
  Nat.le_refl _

theorem le_trans (le : a ≤ b) (le' : b ≤ c) : a ≤ c :=
  Nat.le_trans le le'

@[simp] theorem i_le (a : Architecture) : i ≤ a :=
  Nat.zero_le _

@[simp] theorem ii_le_iii : ii ≤ iii :=
  Nat.le_succ 1

@[simp] theorem le_iv (a : Architecture) : a ≤ iv := by
  cases a <;> decide

theorem le_i_iff : a ≤ i ↔ a = i := by
  cases a <;> decide

theorem max_le_iff : max a b ≤ c ↔ a ≤ c ∧ b ≤ c := by
  change (if a ≤ b then b else a) ≤ c ↔ _
  split
  · rename_i le
    exact ⟨fun le' => ⟨le_trans le le', le'⟩, And.right⟩
  · rename_i nle
    exact ⟨fun le' => ⟨le', le_trans (Nat.le_of_not_le nle) le'⟩, And.left⟩

/-- A run costs the more to start the stronger the architecture is. -/
theorem runCost_mono (le : a ≤ b) : a.runCost ≤ b.runCost := by
  revert le
  cases a <;> cases b <;> decide

end Architecture

theorem Kind.architecture_le_i_iff {k : Kind} : k.architecture ≤ .i ↔ k.isBasic = true := by
  cases k <;> decide

namespace Program

variable {p q : Program} {a : Architecture}

theorem requiredArchitecture_le_iff :
    p.requiredArchitecture ≤ a ↔ ∀ i ∈ p.instructions.toList, i.kind.architecture ≤ a := by
  have folds (is : List Instruction) (least : Architecture) :
      is.foldl (fun a i => max a i.kind.architecture) least ≤ a ↔
        least ≤ a ∧ ∀ i ∈ is, i.kind.architecture ≤ a := by
    induction is generalizing least with
    | nil => simp
    | cons i is ih =>
      rw [List.foldl_cons, ih, Architecture.max_le_iff, List.forall_mem_cons, and_assoc]
  rw [requiredArchitecture, ← Array.foldl_toList, folds]
  exact and_iff_right (Architecture.i_le a)

/-- The weakest architecture is enough exactly if nothing is left to be lowered. -/
theorem requiredArchitecture_eq_i_iff : p.requiredArchitecture = .i ↔ p.isBasic = true := by
  rw [← Architecture.le_i_iff, requiredArchitecture_le_iff, isBasic,
    Array.all_eq_true_iff_forall_mem]
  exact forall_congr' fun i => imp_congr Array.mem_toList_iff Kind.architecture_le_i_iff

end Program

namespace Lowering

variable {functions : Functions} {names : Names} {v : Variable} {op : Operation}
  {i : Instruction} {block : List Instruction} {n : Nat}

/-- The rules write instructions of the architectures up to that of the one they lower. Calls are
of the newest architecture, so whatever the body of a callee holds is no newer. -/
theorem Drafted.architecture_le (drafted : Drafted functions names v op block n) :
    ∀ b ∈ block, b.kind.architecture ≤ op.kind.architecture := by
  cases drafted with
  | calling | testingCall => exact fun b _ => Architecture.le_iv _
  | countingUp =>
    refine List.forall_mem_cons.2 ⟨Architecture.le_refl _, fun b mem => ?_⟩
    rw [List.eq_of_mem_replicate mem]
    exact Architecture.i_le _
  | testingConstant k =>
    refine List.forall_mem_cons.2 ⟨Architecture.le_refl _, List.forall_mem_append.2 ⟨?_, ?_⟩⟩
    · exact forall_mem_countingDown (P := fun b => b.kind.architecture ≤ .iii)
        (Architecture.le_refl _) (Architecture.i_le _) _
    · simp [labelled, neutral, goto, jumpNotZero, Instruction.kind, Operation.kind,
        Kind.architecture]
  | _ =>
    simp [jumpingBlock, copyingBlock, testingZeroBlock, testingVariableBlock, labelled, neutral,
      increase, decrease, zero, assign, goto, jumpZero, jumpNotZero, Instruction.kind,
      Operation.kind, Kind.architecture]

theorem Lowered.architecture_le (lowered : Lowered functions names i block n) :
    ∀ b ∈ block, b.kind.architecture ≤ i.kind.architecture := by
  cases lowered with
  | basic => exact List.forall_mem_singleton.2 (Architecture.le_refl _)
  | clearing =>
    exact List.forall_mem_cons.2 ⟨Architecture.i_le _,
      List.forall_mem_singleton.2 (Architecture.i_le _)⟩
  | synthetic drafted =>
    have bound := drafted.architecture_le
    obtain ⟨first, rest, rfl, unlabelled⟩ := drafted.exists_cons
    rw [withEntry_cons _ rest unlabelled]
    obtain ⟨own, others⟩ := List.forall_mem_cons.1 bound
    exact List.forall_mem_cons.2 ⟨own, others⟩

end Lowering

namespace Expansion

variable {functions : Functions} {p q : Program} {e : Expansion}

theorem Lays.requiredArchitecture_le {a : Layout} (lays : Lays functions p q a) :
    q.requiredArchitecture ≤ p.requiredArchitecture := by
  have own := Program.requiredArchitecture_le_iff.1 (Architecture.le_refl p.requiredArchitecture)
  refine Program.requiredArchitecture_le_iff.2 fun b mem => ?_
  obtain ⟨k, i, at_k, b', inside, same⟩ := lays.exists_block mem
  obtain ⟨n, lowered, -⟩ := lays.lowered at_k
  have occurs : i ∈ p.instructions.toList :=
    List.mem_of_getElem? (Array.getElem?_toList.trans at_k)
  have kind : b.kind = b'.kind := congrArg Operation.kind (Frame.detached_eq same).2.1
  rw [kind]
  exact Architecture.le_trans (lowered.architecture_le b' inside) (own i occurs)

/-- Later generations need no stronger architecture. The induction is on the later degree, and
each round back to the earlier one is that of a ready program. -/
theorem Ready.requiredArchitecture_le (ready : Ready functions e.loaded)
    (chained : e.Chained functions) {low high : Nat} (le : low ≤ high)
    (at_low : e.generation? low = some p) (at_high : e.generation? high = some q) :
    q.requiredArchitecture ≤ p.requiredArchitecture := by
  induction high generalizing q with
  | zero =>
    obtain rfl := Nat.le_zero.1 le
    cases at_low.symm.trans at_high
    exact Architecture.le_refl _
  | succ high ih =>
    obtain rfl | less := Nat.eq_or_lt_of_le le
    · cases at_low.symm.trans at_high
      exact Architecture.le_refl _
    · obtain ⟨mid, nextId, before, made⟩ := chained high q at_high
      have middle : Ready functions mid :=
        chained.induction ready (fun _ _ _ ready next => ready.next next) before
      obtain ⟨a, lays⟩ := middle.exists_lays made
      exact Architecture.le_trans lays.requiredArchitecture_le (ih (Nat.le_of_lt_succ less) before)

end Expansion

end SLanguage
