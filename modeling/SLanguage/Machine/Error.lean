import SLanguage.Ledger
import SLanguage.Machine.Snapshot
import SLanguage.Lowering.Error

/-! Why a run stops before its program halts. -/

namespace SLanguage

inductive RunError where
  | unknownFunction (function : String)
  | credits (cause : Shortfall)
  | cancelled
  | interrupted (last : Snapshot)
  | undefinedLabel (program : String) (label : Label)
  | callDepthExceeded (function : String) (limit : Nat)
  | expand (cause : LoweringError)
deriving DecidableEq, Repr

namespace RunError

def message : RunError → String
  | unknownFunction function => s!"unknown function `{function}`"
  | credits cause => cause.message
  | cancelled => "run cancelled"
  | interrupted last => s!"resume interrupted after {last.cycles} cycles"
  | undefinedLabel program label => s!"jump to undefined label {label} in `{program}`"
  | callDepthExceeded function limit =>
    s!"call depth limit of {limit} exceeded calling `{function}`"
  | expand cause => cause.message

/-- A callee that cannot be spliced in. An unknown name is the same error whether the
callee would be spliced in or run apart. -/
def ofLowering : LoweringError → RunError
  | .unknownFunction function => unknownFunction function
  | cause => expand cause

end RunError

end SLanguage
