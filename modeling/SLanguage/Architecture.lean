import SLanguage.Text.Fold

/-!
Architectures. Each one runs the instructions of all the earlier ones and adds its
own, and starting a run on it costs a fixed fee in credits.
-/

namespace SLanguage

inductive Architecture where
  | i
  | ii
  | iii
  | iv
deriving DecidableEq, Repr

namespace Architecture

def all : List Architecture := [i, ii, iii, iv]

def ordinal : Architecture → Nat
  | i => 0
  | ii => 1
  | iii => 2
  | iv => 3

instance : LE Architecture := ⟨fun a b => a.ordinal ≤ b.ordinal⟩

instance (a b : Architecture) : Decidable (a ≤ b) :=
  inferInstanceAs (Decidable (a.ordinal ≤ b.ordinal))

instance : Max Architecture := ⟨fun a b => if a ≤ b then b else a⟩

def name : Architecture → String
  | i => "I"
  | ii => "II"
  | iii => "III"
  | iv => "IV"

instance : ToString Architecture := ⟨name⟩

def runCost : Architecture → Nat
  | i => 5
  | ii => 100
  | iii => 500
  | iv => 1000

def ofName? (text : String) : Option Architecture :=
  all.find? fun a => Text.fold a.name == Text.key text

end Architecture

end SLanguage
