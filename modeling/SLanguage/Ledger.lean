import SLanguage.Amount
import Std.Data.TreeMap

/-!
Credits. A ledger holds the balances of users by name, 0 for a user it does not know,
or is unlimited and holds none. A charge takes its whole amount or nothing. The ledger
counts the charges that were tried, failing ones and charges of 0 among them.
-/

namespace SLanguage

/-- A charge that a user cannot pay. -/
structure Shortfall where
  user : String
  requested : Nat
  available : Nat
deriving DecidableEq, Repr

def Shortfall.message (s : Shortfall) : String :=
  s!"user `{s.user}` needs {s.requested} credits but has {s.available}"

structure Ledger where
  balances? : Option (Std.TreeMap String Nat)
  charges : Nat := 0

namespace Ledger

def empty : Ledger where
  balances? := some ∅

def unlimited : Ledger where
  balances? := none

/-- The credits of a user, unless the ledger keeps no balances. -/
def balance? (l : Ledger) (user : String) : Option Nat :=
  l.balances?.map fun balances => balances.getD user 0

def setBalance (l : Ledger) (user : String) (amount : Nat) : Ledger :=
  { l with balances? := l.balances?.map fun balances => balances.insert user amount }

theorem balance?_setBalance (l : Ledger) (user other : String) (amount : Nat) :
    (l.setBalance user amount).balance? other =
      if user = other then l.balances?.map fun _ => amount else l.balance? other := by
  cases h : l.balances? with
  | none => simp [setBalance, balance?, h]
  | some balances =>
    simp only [setBalance, balance?, h, Option.map_some, Std.TreeMap.getD_insert,
      Std.LawfulEqCmp.compare_eq_iff_eq]
    split <;> rfl

def deposit (l : Ledger) (user : String) (amount : Nat) : Ledger :=
  l.setBalance user (Amount.sum ((l.balance? user).getD 0) amount)

theorem balance?_deposit_self (l : Ledger) (user : String) (amount : Nat) :
    (l.deposit user amount).balance? user =
      (l.balance? user).map fun balance => Amount.sum balance amount := by
  rw [deposit, balance?_setBalance, if_pos rfl]
  cases h : l.balances? <;> simp [balance?, h]

theorem balance?_deposit_of_ne (l : Ledger) {user other : String} (amount : Nat)
    (h : user ≠ other) : (l.deposit user amount).balance? other = l.balance? other := by
  rw [deposit, balance?_setBalance, if_neg h]

/-- Takes an amount from a user who has it. A charge of 0 is always paid. -/
def charge (l : Ledger) (user : String) (amount : Nat) : Except Shortfall Unit × Ledger :=
  let l := { l with charges := l.charges + 1 }
  match l.balance? user with
  | none => (.ok (), l)
  | some available =>
    if amount = 0 then (.ok (), l)
    else if available < amount then (.error ⟨user, amount, available⟩, l)
    else (.ok (), l.setBalance user (available - amount))

theorem charges_charge (l : Ledger) (user : String) (amount : Nat) :
    (l.charge user amount).2.charges = l.charges + 1 := by
  unfold charge setBalance
  simp only
  split
  · rfl
  · split
    · rfl
    · split <;> rfl

def refund (l : Ledger) (user : String) (amount : Nat) : Ledger :=
  if amount = 0 then l else l.deposit user amount

end Ledger

end SLanguage
