import SLanguage.Refusal
import SLanguage.Program.Names

/-! Why a program cannot be lowered, or a degree cannot be given. -/

namespace SLanguage

inductive LoweringError where
  | unknownFunction (function : String)
  | assemble (cause : Refusal)
  | names (cause : OutOfNames)
  | degreeOutOfRange (requested max : Nat)
deriving DecidableEq, Repr

def LoweringError.message : LoweringError → String
  | .unknownFunction function => s!"cannot expand call to unknown function `{function}`"
  | .assemble cause => cause.message
  | .names cause => cause.message
  | .degreeOutOfRange requested max =>
    s!"degree {requested} is out of range (max degree is {max})"

abbrev Drafting (α : Type) := Drawing LoweringError α

namespace Drafting

def label : Drafting Label :=
  Drawing.label .names

def work : Drafting Variable :=
  Drawing.work .names

/-- As many fresh work variables as are asked for. -/
def works : Nat → Drafting (List Variable)
  | 0 => return []
  | n + 1 => return (← work) :: (← works n)

end Drafting

end SLanguage
