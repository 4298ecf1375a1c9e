import SLanguage.Proofs.Lowering.Composing

/-! How lowering fails. Names run out, or the function of a call is unknown, and there is no
other reason. -/

namespace SLanguage

namespace Drafting

variable {α β : Type}

/-- The work fails for these reasons only. -/
def FailsOnly (E : LoweringError → Prop) (x : Drafting α) : Prop :=
  ∀ names e after, x.drawn names = (.error e, after) → E e

namespace FailsOnly

variable {E : LoweringError → Prop}

theorem of_throw {e : LoweringError} (reason : E e) : FailsOnly E (throw e : Drafting α) := by
  intro names e' after h
  cases h
  exact reason

theorem bind {x : Drafting α} {f : α → Drafting β} (first : FailsOnly E x)
    (rest : ∀ a, FailsOnly E (f a)) : FailsOnly E (x >>= f) := by
  intro names e after h
  rw [drawn_bind] at h
  cases drawn : x.drawn names with
  | mk outcome mid =>
    rw [drawn] at h
    cases outcome with
    | error e' =>
      cases h
      exact first names e after drawn
    | ok a => exact rest a mid e after h

theorem composes (runsOut : ∀ cause, E (.names cause)) : Composes (FailsOnly E) where
  pure _ := fun _ _ _ h => nomatch h
  bind := bind
  label := by
    intro names e after h
    rw [drawn_label] at h
    split at h
    · cases h
    · cases h
      exact runsOut .labels
  work := by
    intro names e after h
    rw [drawn_work] at h
    split at h
    · cases h
    · cases h
      exact runsOut .workVariables

end FailsOnly

/-- The work fails for no other reason than that names run out. -/
def RunsOut (x : Drafting α) : Prop :=
  ∀ names e after, x.drawn names = (.error e, after) → ∃ cause, e = .names cause

theorem RunsOut.composes : Composes RunsOut :=
  FailsOnly.composes fun cause => ⟨cause, rfl⟩

end Drafting

open Drafting (FailsOnly RunsOut)

theorem Frame.splice_runsOut {functions : Functions} {c : Call} {callee : Program}
    (found : functions.find? c.function = some callee) (rule : ExitRule) :
    RunsOut (splice functions c rule) :=
  RunsOut.composes.splice rule fun absent => nomatch absent.symm.trans found

/-- A whole round fails for one of these reasons, if they include that names run out and that
a function is unknown where one is called. -/
theorem Expansion.lowerAll_failsOnly {functions : Functions} {is : List Instruction}
    {nextId : Nat} {E : LoweringError → Prop} (runsOut : ∀ cause, E (.names cause))
    (unknown : ∀ i ∈ is, ∀ c, i.op = .quote c → functions.find? c.function = none →
      E (.unknownFunction c.function)) : FailsOnly E (lowerAll functions is nextId) :=
  (FailsOnly.composes runsOut).lowerAll fun i mem c op absent =>
    .of_throw (unknown i mem c op absent)

end SLanguage
