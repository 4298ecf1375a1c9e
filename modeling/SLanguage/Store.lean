import SLanguage.Variable

/-!
Stores: the values of the variables of a run. A variable that was never written
holds 0. Values are natural numbers, and an instruction writes none above `largest`.
-/

namespace SLanguage

structure Store where
  values : Std.TreeMap Variable Nat

namespace Store

/-- The number 2^63 - 1. -/
def largest : Nat :=
  9223372036854775807

instance : EmptyCollection Store := ⟨⟨∅⟩⟩

def get (s : Store) (v : Variable) : Nat :=
  s.values.getD v 0

def set (s : Store) (v : Variable) (n : Nat) : Store :=
  ⟨s.values.insert v n⟩

@[simp] theorem get_empty (v : Variable) : (∅ : Store).get v = 0 :=
  Std.TreeMap.getD_emptyc

theorem get_set (s : Store) (v w : Variable) (n : Nat) :
    (s.set v n).get w = if v = w then n else s.get w := by
  simp only [get, set, Std.TreeMap.getD_insert, Std.LawfulEqCmp.compare_eq_iff_eq]

@[simp] theorem get_set_self (s : Store) (v : Variable) (n : Nat) : (s.set v n).get v = n := by
  simp [get_set]

theorem get_set_of_ne (s : Store) {v w : Variable} (n : Nat) (h : v ≠ w) :
    (s.set v n).get w = s.get w := by
  simp [get_set, h]

/-- The result, which is what a program leaves in `y`. -/
def result (s : Store) : Nat :=
  s.get .result

/-- Writes values one after the other. -/
def assign (s : Store) (values : List (Variable × Nat)) : Store :=
  values.foldl (fun s value => s.set value.1 value.2) s

/-- The store in which `x1, x2, …` hold the inputs in order. -/
def ofInputs (inputs : List Nat) : Store :=
  assign ∅ ((Variable.firstInputs inputs.length).zip inputs)

/-- A number as the value of a variable: negative numbers count as 0. -/
def natural (n : Int64) : Nat :=
  n.toInt.toNat

end Store

end SLanguage
