import SLanguage.Instruction.Record

/-!
Definitions, the textual form of programs, and bundles, in which a main program
arrives together with functions of its own.
-/

namespace SLanguage

structure Definition where
  name : String
  displayName? : Option String := none
  records : List Record
deriving DecidableEq, Repr

/-- The name shown to people: the program's own name if none is given. -/
def Definition.displayName (d : Definition) : String :=
  d.displayName?.getD d.name

structure Bundle where
  main : Definition
  functions : List Definition := []
deriving DecidableEq, Repr

end SLanguage
