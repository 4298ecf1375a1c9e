import SLanguage.Text.Numeral

/-!
Serial numbers of variables and labels: the numbers from 1 to 2^32 - 1. The limit
is observable, since a program that uses the last serial leaves no fresh name.
-/

namespace SLanguage

structure Serial where
  val : Nat
  val_pos : 0 < val := by omega
  val_le : val ≤ 4294967295 := by omega
deriving DecidableEq, Repr

namespace Serial

def one : Serial := { val := 1 }

def last : Nat := 4294967295

def ofNat? (n : Nat) : Option Serial :=
  if h : 0 < n ∧ n ≤ last then some ⟨n, h.1, h.2⟩ else none

def read? (cs : List Char) : Option Serial :=
  (Text.readNumeral? cs).bind ofNat?

instance : ToString Serial := ⟨fun s => toString s.val⟩

theorem ext {a b : Serial} (h : a.val = b.val) : a = b := by
  cases a; cases b; simp_all

theorem ofNat?_eq_some_iff {n : Nat} {s : Serial} : ofNat? n = some s ↔ s.val = n := by
  have pos := s.val_pos
  have le := s.val_le
  unfold ofNat? last
  split
  · rename_i h
    constructor
    · intro eq
      cases eq
      rfl
    · intro eq
      exact congrArg some (ext eq.symm)
  · constructor
    · intro eq
      cases eq
    · intro eq
      omega

@[simp] theorem ofNat?_val (s : Serial) : ofNat? s.val = some s :=
  ofNat?_eq_some_iff.2 rfl

end Serial

end SLanguage
