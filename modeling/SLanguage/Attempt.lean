/-!
Attempts: work that succeeds, fails for a reason, or has not ended within the bound
that it was given. Only the last is `none`, so a program that never halts is told
apart from one that is refused.
-/

namespace SLanguage

abbrev Attempt (ε α : Type) := ExceptT ε Option α

namespace Attempt

variable {ε α : Type}

def unfinished : Attempt ε α :=
  ExceptT.mk none

def ofExcept (r : Except ε α) : Attempt ε α :=
  ExceptT.mk (some r)

end Attempt

end SLanguage
