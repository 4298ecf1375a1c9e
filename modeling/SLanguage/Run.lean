import SLanguage.Machine.Evaluator
import SLanguage.Signal

/-!
Paid runs. Work that is paid for keeps a ledger, also when it fails. A run steps until
its program halts. It looks at its signal before every instruction, and what the
instruction cost is charged to the payer, if there is one, after it.
-/

namespace SLanguage

abbrev Billing (α : Type) := StateT Ledger Option α

abbrev Metered (ε α : Type) := ExceptT ε (StateT Ledger Option) α

namespace Metered

variable {ε α : Type}

def ofAttempt (a : Attempt ε α) : Metered ε α :=
  ExceptT.mk fun ledger => a.run.map fun outcome => (outcome, ledger)

def unfinished : Metered ε α :=
  ExceptT.mk fun _ => none

/-- The charges that were tried so far. -/
def charges : Metered ε Nat :=
  return (← getThe Ledger).charges

/-- Charges a payer. Nobody pays where there is none. -/
def pay (payer? : Option String) (amount : Nat) : Metered Shortfall Unit :=
  match payer? with
  | none => return
  | some user => ExceptT.mk fun ledger => some (ledger.charge user amount)

def refund (payer? : Option String) (amount : Nat) (ledger : Ledger) : Ledger :=
  match payer? with
  | none => ledger
  | some user => ledger.refund user amount

end Metered

/-- A run: how it answers calls, who pays for it, and what may stop it. -/
structure Run where
  evaluator : Evaluator
  payer? : Option String := none
  signal : Signal := {}

namespace Run

def toEnd (r : Run) (p : Program) : Nat → Machine → Metered RunError Machine
  | 0, _ => Metered.unfinished
  | n + 1, m => do
    if !m.isRunning then return m
    if r.signal.isRaised (← Metered.charges) then throw .cancelled
    match ← Metered.ofAttempt (m.step (r.evaluator.answerAt 0) p) with
    | none => return m
    | some v =>
      (Metered.pay r.payer? v.cost).adapt .credits
      toEnd r p n v.after

/-- Runs a program from its start. -/
def perform (r : Run) (p : Program) (inputs : List Int64) : Metered RunError Outcome :=
  return (← r.toEnd p r.evaluator.stepLimit (.ofInputs p inputs)).outcome p

end Run

end SLanguage
