/-!
Decimal numerals. A numeral is one or more of the digits 0 to 9; leading zeros are
allowed and no other script has digits here. Reading gives the exact number,
whatever its size, and leaves limits to the caller.
-/

namespace SLanguage.Text

def digitValue (c : Char) : Nat :=
  c.toNat - '0'.toNat

def numeralValue (cs : List Char) : Nat :=
  cs.foldl (fun n c => 10 * n + digitValue c) 0

def readNumeral? (cs : List Char) : Option Nat :=
  if cs ≠ [] ∧ cs.all Char.isDigit then some (numeralValue cs) else none

theorem numeralValue_append (cs : List Char) (c : Char) :
    numeralValue (cs ++ [c]) = 10 * numeralValue cs + digitValue c := by
  simp [numeralValue]

@[simp] theorem readNumeral?_nil : readNumeral? [] = none := rfl

example : readNumeral? ['0', '0', '4', '2'] = some 42 := by decide

example : readNumeral? ['4', '_'] = none := by decide

end SLanguage.Text
