import SLanguage.Machine.Error
import SLanguage.Registry

/-! Why an operation of the engine fails. -/

namespace SLanguage

inductive ActionError where
  | programNotFound (name : String)
  | sessionNotFound (user program : String)
  | unsupportedArchitecture (architecture required : Architecture)
  | registry (cause : RegistrationError)
  | expand (cause : LoweringError)
  | run (cause : RunError)
deriving DecidableEq, Repr

def ActionError.message : ActionError → String
  | .programNotFound name => s!"no program named `{name}`"
  | .sessionNotFound user program => s!"no debug session for user `{user}` on `{program}`"
  | .unsupportedArchitecture architecture required =>
    s!"architecture {architecture} cannot run this program, it needs at least {required}"
  | .registry cause => cause.message
  | .expand cause => cause.message
  | .run cause => cause.message

end SLanguage
