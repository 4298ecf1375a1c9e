import SLanguage.Proofs.Machine.Passages

/-! Simulations. A machine that makes at least one step for every step of another one
halts if that one does, and it does not halt any sooner. -/

namespace SLanguage

namespace Machine

variable {answering : Answering} {p : Program} {m last : Machine} {n : Nat}

theorem toHalt_eq_unfinished_iff :
    m.toHalt answering p n = .unfinished ↔ m.drive answering p n = none := by
  unfold toHalt
  cases m.drive answering p n with
  | none => exact ⟨fun _ => rfl, fun _ => rfl⟩
  | some r =>
    obtain ⟨m', _ | e⟩ := r
    · exact ⟨fun h => absurd h (Attempt.pure_ne_stop m' none), fun h => nomatch h⟩
    · exact ⟨fun h => (nomatch Attempt.stop_injective (some e) none h), fun h => nomatch h⟩

theorem toHalt_eq_pure_iff :
    m.toHalt answering p n = pure last ↔ m.drive answering p n = some (last, none) := by
  unfold toHalt
  cases m.drive answering p n with
  | none => exact ⟨fun h => absurd h.symm (Attempt.pure_ne_stop last none), fun h => nomatch h⟩
  | some r =>
    obtain ⟨m', _ | e⟩ := r
    · exact ⟨fun h => by rw [Attempt.pure_injective h], fun h => by cases h; rfl⟩
    · exact ⟨fun h => absurd h.symm (Attempt.pure_ne_stop last (some e)), fun h => nomatch h⟩

/-- A machine that comes to halt does so with any number of further steps to spare. -/
theorem toHalt_of_steps (steps : m.Steps answering p n last)
    (halted : (last.step answering p).run = some (.ok none)) :
    m.toHalt answering p (n + 1) = pure last := by
  rw [toHalt_eq_pure_iff, drive_of_steps steps, drive, halted]

/-- A program that is assembled gets stuck in its calls only. -/
theorem effect_of_step_unfinished (assembled : p.Assembled) {k : Nat} {i : Instruction}
    (next : m.next? = some k) (at_k : p.instructions[k]? = some i)
    (unfinished : m.step answering p = .unfinished) : i.effect answering m.store = .unfinished := by
  rw [step_of_instruction next at_k] at unfinished
  obtain stopped | ⟨e, ran, unfinished⟩ := Attempt.stop_of_bind none unfinished
  · exact stopped
  · obtain ⟨y, rfl⟩ := Instruction.exists_reaction ran
    obtain ⟨next?, followed⟩ := assembled.follow_total at_k Instruction.jump_reaction
    rw [followed] at unfinished
    exact absurd unfinished (Attempt.pure_ne_stop _ none)

end Machine

/-- The second program makes at least one step for every step of the first, and stalls
where a call of the first is not answered in time. -/
structure Simulates (answering answering' : Answering) (p q : Program) (limit : Nat)
    (R : Machine → Machine → Prop) : Prop where
  advances : ∀ {m m' : Machine} {v : Visit}, R m m' →
    (m.step answering p).run = some (.ok (some v)) →
      ∃ n last, 0 < n ∧ m'.Steps answering' q n last ∧ R v.after last
  stalls : ∀ {m m' : Machine}, R m m' → m.step answering p = .unfinished →
    Stalls answering' q limit m'.next? m'.store

namespace Simulates

variable {answering answering' : Answering} {p q : Program} {limit : Nat}
  {R : Machine → Machine → Prop} (simulates : Simulates answering answering' p q limit R)
  {m m' : Machine} {n : Nat}

include simulates

theorem exists_steps (related : R m m') {last : Machine}
    (halts : m.toHalt answering p n = pure last) :
    ∃ n' last', m'.Steps answering' q n' last' ∧ R last last' ∧
      (last.step answering p).run = some (.ok none) := by
  induction n generalizing m m' with
  | zero => exact absurd halts.symm (Attempt.pure_ne_stop last none)
  | succ n ih =>
    rw [Machine.toHalt_succ] at halts
    obtain ⟨v?, made, rest⟩ := Attempt.run_bind_eq_ok.1 (congrArg ExceptT.run halts)
    cases v? with
    | none =>
      obtain rfl := Attempt.pure_injective rest
      exact ⟨0, m', .refl m', related, made⟩
    | some v =>
      obtain ⟨k, mid, -, first, related⟩ := simulates.advances related made
      obtain ⟨k', last', second, related, halted⟩ := ih related rest
      exact ⟨k + k', last', first.trans second, related, halted⟩

/-- The induction is on the steps that the second machine may make, which are used up at
least as fast as those of the first. -/
theorem stalls_of_unfinished (related : R m m') (le : n ≤ limit)
    (unfinished : m.drive answering p n = none) : m'.drive answering' q n = none := by
  induction n using Nat.strongRecOn generalizing m m' with
  | _ n ih =>
    cases n with
    | zero => rfl
    | succ n =>
      rw [Machine.drive] at unfinished
      split at unfinished
      · rename_i stopped
        exact simulates.stalls related stopped m' rfl rfl (n + 1) le
      · cases unfinished
      · cases unfinished
      · rename_i v made
        obtain ⟨k, mid, pos, first, related⟩ := simulates.advances related made
        cases ended : m'.drive answering' q (n + 1) with
        | none => rfl
        | some r =>
          have later : m'.drive answering' q (k + (n + 1 - k)) = some r :=
            Machine.drive_of_le (by omega) ended
          rw [Machine.drive_of_steps first] at later
          have before : v.after.drive answering p (n + 1 - k) = none := by
            cases early : v.after.drive answering p (n + 1 - k) with
            | none => rfl
            | some r =>
              have ended : v.after.drive answering p n = some r :=
                Machine.drive_of_le (by omega) early
              rw [unfinished] at ended
              cases ended
          rw [ih (n + 1 - k) (by omega) related (by omega) before] at later
          cases later

end Simulates

end SLanguage
