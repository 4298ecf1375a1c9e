import SLanguage.Proofs.Keeping
import SLanguage.Run

/-! Metered work, unfolded. What it makes of a ledger is known from its parts. -/

namespace SLanguage

namespace Metered

variable {ε ε' α : Type}

theorem run_ofAttempt (a : Attempt ε α) (ledger : Ledger) :
    (ofAttempt a).run ledger = a.run.map fun outcome => (outcome, ledger) := rfl

theorem run_adapt (f : ε → ε') (x : Metered ε α) (ledger : Ledger) :
    (x.adapt f).run ledger =
      (x.run ledger).map fun (outcome, ledger) => (outcome.mapError f, ledger) := by
  change StateT.map (Except.mapError f) x ledger = _
  simp only [StateT.map]
  change (x.run ledger).bind _ = _
  cases x.run ledger with
  | none => rfl
  | some r => rfl

/-- What becomes of a charge, and the ledger after it. Nobody pays where there is no payer. -/
def bill (payer? : Option String) (amount : Nat) (ledger : Ledger) :
    Except Shortfall Unit × Ledger :=
  match payer? with
  | none => (.ok (), ledger)
  | some user => ledger.charge user amount

theorem run_pay (payer? : Option String) (amount : Nat) (ledger : Ledger) :
    (pay payer? amount).run ledger = some (bill payer? amount ledger) := by
  cases payer? <;> rfl

end Metered

end SLanguage
