/-!
Amounts of cycles and of credits. They are counted up to a largest amount, and a sum
that would pass it stops there.
-/

namespace SLanguage

namespace Amount

/-- The number 2^64 - 1. -/
def largest : Nat :=
  UInt64.size - 1

def sum (a b : Nat) : Nat :=
  min (a + b) largest

theorem sum_le (a b : Nat) : sum a b ≤ largest :=
  Nat.min_le_right _ _

theorem sum_eq {a b : Nat} (h : a + b ≤ largest) : sum a b = a + b :=
  Nat.min_eq_left h

theorem sum_assoc (a b c : Nat) : sum (sum a b) c = sum a (sum b c) := by
  simp only [sum]
  omega

end Amount

end SLanguage
