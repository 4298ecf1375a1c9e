import SLanguage.Label
import SLanguage.Variable

/-!
Why a record, a program or a set of programs is refused. Each cause carries what
its message shows; `message` is the only place where the wording stands.
-/

namespace SLanguage

inductive ArgumentFault where
  | emptyFunctionName
  | emptyArgument
  | unclosedCall
  | trailingInput
deriving DecidableEq, Repr

def ArgumentFault.reason : ArgumentFault → String
  | .emptyFunctionName => "empty function name"
  | .emptyArgument => "empty argument"
  | .unclosedCall => "unclosed call"
  | .trailingInput => "unexpected trailing input"

inductive Refusal where
  | unknownInstruction (name : String)
  | missingArgument (instruction argument : String)
  | invalidVariable (text : String)
  | invalidLabel (text : String)
  | invalidConstant (text : String)
  | malformedArguments (text : String) (fault : ArgumentFault)
  | emptyName
  | duplicateLabel (program : String) (label : Label)
  | undefinedLabel (program : String) (label : Label) (number : Nat)
  | unknownFunction (program function : String)
  | recursiveCall (cycle : List String)
  | duplicateDefinition (name : String)
deriving DecidableEq, Repr

def Refusal.message : Refusal → String
  | .unknownInstruction name => s!"unknown instruction `{name}`"
  | .missingArgument instruction argument =>
    s!"instruction `{instruction}` is missing required argument `{argument}`"
  | .invalidVariable text => s!"`{text}` is not a valid variable"
  | .invalidLabel text => s!"`{text}` is not a valid label"
  | .invalidConstant text => s!"`{text}` is not a valid constant"
  | .malformedArguments text fault =>
    s!"malformed function arguments `{text}`: {fault.reason}"
  | .emptyName => "program name must not be empty"
  | .duplicateLabel program label =>
    s!"label {label} is defined more than once in `{program}`"
  | .undefinedLabel program label number =>
    s!"instruction #{number} of `{program}` jumps to undefined label {label}"
  | .unknownFunction program function => s!"`{program}` calls unknown function `{function}`"
  | .recursiveCall cycle => "recursive function call cycle: " ++ " -> ".intercalate cycle
  | .duplicateDefinition name => s!"`{name}` is defined more than once in the same unit"

def Variable.parse (text : String) : Except Refusal Variable :=
  match Variable.read? text with
  | some v => .ok v
  | none => .error (.invalidVariable text)

def Label.parse (text : String) : Except Refusal Label :=
  match Label.read? text with
  | some l => .ok l
  | none => .error (.invalidLabel text)

end SLanguage
