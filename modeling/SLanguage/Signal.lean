/-!
Signals: requests to stop a run before its next instruction. A signal can be raised
at once, or fall due when a ledger has counted so many charges; a due signal is raised
from then on. Clearing a signal keeps one that is not due yet.
-/

namespace SLanguage

structure Signal where
  raised : Bool := false
  due? : Option Nat := none

namespace Signal

def isRaised (s : Signal) (charges : Nat) : Bool :=
  s.raised || s.due?.any (· ≤ charges)

def raise (s : Signal) : Signal :=
  { s with raised := true }

def clear (s : Signal) (charges : Nat) : Signal where
  due? := s.due?.filter (charges < ·)

/-- Lets the signal fall due at the given charge from now on, the next one for 0 and
for 1, in place of an earlier appointment. -/
def schedule (s : Signal) (charges count : Nat) : Signal where
  raised := s.isRaised charges
  due? := some (charges + max count 1)

theorem isRaised_clear (s : Signal) (charges : Nat) :
    (s.clear charges).isRaised charges = false := by
  cases h : s.due? with
  | none => simp [isRaised, clear, h]
  | some n => by_cases lt : charges < n <;> simp [isRaised, clear, h, Option.filter, lt]

end Signal

end SLanguage
