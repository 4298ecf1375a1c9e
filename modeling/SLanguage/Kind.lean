import SLanguage.Architecture

/-!
Kinds of instruction, with the facts that depend on the kind alone: the name in
records, the architecture that introduced it, its base cost in cycles, and whether
it is basic. Only a kind that is not basic can be lowered into smaller steps.
-/

namespace SLanguage

inductive Kind where
  | increase
  | decrease
  | jumpNotZero
  | neutral
  | zeroVariable
  | gotoLabel
  | assignment
  | constantAssignment
  | jumpZero
  | jumpEqualConstant
  | jumpEqualVariable
  | quote
  | jumpEqualFunction
deriving DecidableEq, Repr

namespace Kind

def all : List Kind :=
  [increase, decrease, jumpNotZero, neutral, zeroVariable, gotoLabel, assignment,
    constantAssignment, jumpZero, jumpEqualConstant, jumpEqualVariable, quote,
    jumpEqualFunction]

def name : Kind → String
  | increase => "INCREASE"
  | decrease => "DECREASE"
  | jumpNotZero => "JUMP_NOT_ZERO"
  | neutral => "NEUTRAL"
  | zeroVariable => "ZERO_VARIABLE"
  | gotoLabel => "GOTO_LABEL"
  | assignment => "ASSIGNMENT"
  | constantAssignment => "CONSTANT_ASSIGNMENT"
  | jumpZero => "JUMP_ZERO"
  | jumpEqualConstant => "JUMP_EQUAL_CONSTANT"
  | jumpEqualVariable => "JUMP_EQUAL_VARIABLE"
  | quote => "QUOTE"
  | jumpEqualFunction => "JUMP_EQUAL_FUNCTION"

def ofName? (text : String) : Option Kind :=
  all.find? fun k => Text.fold k.name == Text.key text

def isBasic : Kind → Bool
  | increase | decrease | jumpNotZero | neutral => true
  | _ => false

/-- The cost of one execution. For a call it is the part that does not depend on
what the callee does. -/
def baseCycles : Kind → Nat
  | neutral => 0
  | increase | decrease | zeroVariable | gotoLabel => 1
  | jumpNotZero | constantAssignment | jumpZero | jumpEqualConstant | jumpEqualVariable => 2
  | assignment => 4
  | quote => 5
  | jumpEqualFunction => 6

def architecture : Kind → Architecture
  | increase | decrease | jumpNotZero | neutral => .i
  | zeroVariable | gotoLabel | constantAssignment => .ii
  | assignment | jumpZero | jumpEqualConstant | jumpEqualVariable => .iii
  | quote | jumpEqualFunction => .iv

end Kind

def Architecture.supports (a : Architecture) (k : Kind) : Bool :=
  decide (k.architecture ≤ a)

end SLanguage
