import SLanguage.Expansion.Basic

/-!
A program with its expansion, once that has been asked for. An expansion that fails
or does not end is not kept.
-/

namespace SLanguage

structure Cached where
  program : Program
  expansion? : Option Expansion := none

namespace Cached

def expand (functions : Functions) (c : Cached) : Attempt LoweringError (Expansion × Cached) :=
  match c.expansion? with
  | some e => return (e, c)
  | none => do
    let e ← Expansion.ofProgram functions c.program
    return (e, { c with expansion? := some e })

/-- The highest degree if the expansion is there, and 0 otherwise. -/
def topDegree (c : Cached) : Nat :=
  (c.expansion?.map Expansion.topDegree).getD 0

end Cached

end SLanguage
