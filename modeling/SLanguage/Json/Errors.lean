import SLanguage.Engine.Error
import SLanguage.Json.Runs

/-!
How errors are reported: an object with a code, which leads from the area of the error
to its innermost cause, and a message for people. An interrupted run also shows where
it stands.
-/

namespace SLanguage

class Reported (ε : Type) where
  area : String
  code : ε → String
  message : ε → String
  details : ε → List (String × Json) := fun _ => []

namespace Reported

variable {ε : Type} [Reported ε]

/-- The code of an error with its area in front. -/
def path (e : ε) : String :=
  area ε ++ "." ++ code e

def report (e : ε) : Json :=
  .obj ([("error", .str (path e)), ("message", .str (message e))] ++ details e)

end Reported

instance : Reported Refusal where
  area := "Load"
  code
    | .unknownInstruction _ => "UnknownInstruction"
    | .missingArgument _ _ => "MissingArgument"
    | .invalidVariable _ => "InvalidVariable"
    | .invalidLabel _ => "InvalidLabel"
    | .invalidConstant _ => "InvalidConstant"
    | .malformedArguments _ _ => "MalformedArguments"
    | .emptyName => "EmptyName"
    | .duplicateLabel _ _ => "DuplicateLabel"
    | .undefinedLabel _ _ _ => "UndefinedLabel"
    | .unknownFunction _ _ => "UnknownFunction"
    | .recursiveCall _ => "RecursiveCall"
    | .duplicateDefinition _ => "DuplicateDefinition"
  message := Refusal.message

instance : Reported OutOfNames where
  area := "Names"
  code
    | .labels => "Labels"
    | .workVariables => "WorkVariables"
  message := OutOfNames.message

instance : Reported LoweringError where
  area := "Expand"
  code
    | .unknownFunction _ => "UnknownFunction"
    | .assemble cause => "Assemble." ++ Reported.code cause
    | .names cause => Reported.path cause
    | .degreeOutOfRange _ _ => "DegreeOutOfRange"
  message := LoweringError.message

instance : Reported RunError where
  area := "Exec"
  code
    | .unknownFunction _ => "UnknownFunction"
    | .credits _ => "Credits.Insufficient"
    | .cancelled => "Cancelled"
    | .interrupted _ => "Interrupted"
    | .undefinedLabel _ _ => "UndefinedLabel"
    | .callDepthExceeded _ _ => "CallDepthExceeded"
    | .expand cause => Reported.path cause
  message := RunError.message
  details
    | .interrupted last => [("snapshot", encode last)]
    | _ => []

instance : Reported RegistrationError where
  area := "Registry"
  code
    | .duplicateMain _ => "DuplicateMainProgram"
    | .duplicateFunction _ => "DuplicateFunction"
    | .load cause => Reported.path cause
  message := RegistrationError.message

instance : Reported ActionError where
  area := "Engine"
  code
    | .programNotFound _ => "ProgramNotFound"
    | .sessionNotFound _ _ => "SessionNotFound"
    | .unsupportedArchitecture _ _ => "UnsupportedArchitecture"
    | .registry cause => Reported.path cause
    | .expand cause => Reported.path cause
    | .run cause => Reported.path cause
  message := ActionError.message
  details
    | .run cause => Reported.details cause
    | _ => []

end SLanguage
