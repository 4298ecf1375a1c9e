import SLanguage.Call.Printer
import SLanguage.Call.Reader
import SLanguage.Instruction.Basic

/-!
Records, the textual form in which instructions arrive and leave: the name of a
kind, an optional label, the subject and named arguments. A record is read from
its name to its arguments, so the first fault in that order is the one reported.
No instruction can be labelled EXIT, and no jump can go to the empty label.
-/

namespace SLanguage

structure Record where
  name : String
  label? : Option String := none
  subject : String := ""
  arguments : List (String × String) := []
deriving DecidableEq, Repr

/-- A number from 0 to 2^64 - 1, which may have a plus sign. -/
def readConstant? (cs : List Char) : Option UInt64 :=
  let digits := match cs with
    | '+' :: rest => rest
    | _ => cs
  match Text.readNumeral? digits with
  | some n => if n < UInt64.size then some (UInt64.ofNat n) else none
  | none => none

namespace Record

def argument (r : Record) (key : String) : Except Refusal String :=
  match r.arguments.lookup key with
  | some text => .ok text
  | none => .error (.missingArgument r.name key)

def jumpTarget (r : Record) (key : String) : Except Refusal Label := do
  let text ← r.argument key
  let label ← Label.parse text
  if label.isEmpty then throw (.invalidLabel text)
  return label

def constant (r : Record) : Except Refusal UInt64 := do
  let text ← r.argument "constantValue"
  match readConstant? (Text.trim text).toList with
  | some k => return k
  | none => throw (.invalidConstant text)

def otherVariable (r : Record) (key : String) : Except Refusal Variable := do
  Variable.parse (← r.argument key)

def call (r : Record) : Except Refusal Call := do
  let function ← r.argument "functionName"
  Call.parse function ((r.arguments.lookup "functionArguments").getD "")

def operation (r : Record) : Kind → Except Refusal Operation
  | .increase => return .increase
  | .decrease => return .decrease
  | .jumpNotZero => return .jumpNotZero (← r.jumpTarget "JNZLabel")
  | .neutral => return .neutral
  | .zeroVariable => return .zeroVariable
  | .gotoLabel => return .gotoLabel (← r.jumpTarget "gotoLabel")
  | .assignment => return .assignment (← r.otherVariable "assignedVariable")
  | .constantAssignment => return .constantAssignment (← r.constant)
  | .jumpZero => return .jumpZero (← r.jumpTarget "JZLabel")
  | .jumpEqualConstant => do
    let k ← r.constant
    return .jumpEqualConstant k (← r.jumpTarget "JEConstantLabel")
  | .jumpEqualVariable => do
    let v ← r.otherVariable "variableName"
    return .jumpEqualVariable v (← r.jumpTarget "JEVariableLabel")
  | .quote => return .quote (← r.call)
  | .jumpEqualFunction => do
    let c ← r.call
    return .jumpEqualFunction c (← r.jumpTarget "JEFunctionLabel")

def ownLabel (r : Record) : Except Refusal Label :=
  match r.label? with
  | none => return .empty
  | some text => do
    let label ← Label.parse text
    if label = .exit then throw (.invalidLabel Label.exit.toText)
    return label

/-- A jump without a condition is about no variable, so its subject may be left blank. -/
def parseSubject (r : Record) (kind : Kind) : Except Refusal Variable :=
  if kind = .gotoLabel ∧ Text.trim r.subject = "" then return .result
  else Variable.parse r.subject

def instruction (r : Record) : Except Refusal Instruction := do
  let some kind := Kind.ofName? r.name | throw (.unknownInstruction r.name)
  let label ← r.ownLabel
  let subject ← r.parseSubject kind
  let op ← r.operation kind
  return { subject, op, label }

end Record

def Operation.arguments : Operation → List (String × String)
  | increase | decrease | neutral | zeroVariable => []
  | jumpNotZero l => [("JNZLabel", l.toText)]
  | gotoLabel l => [("gotoLabel", l.toText)]
  | assignment v => [("assignedVariable", v.toText)]
  | constantAssignment k => [("constantValue", toString k.toNat)]
  | jumpZero l => [("JZLabel", l.toText)]
  | jumpEqualConstant k l => [("constantValue", toString k.toNat), ("JEConstantLabel", l.toText)]
  | jumpEqualVariable v l => [("variableName", v.toText), ("JEVariableLabel", l.toText)]
  | quote c => [("functionName", c.function), ("functionArguments", c.argumentList)]
  | jumpEqualFunction c l =>
    [("functionName", c.function), ("functionArguments", c.argumentList),
      ("JEFunctionLabel", l.toText)]

def Instruction.record (i : Instruction) : Record where
  name := i.kind.name
  label? := if i.label.isEmpty then none else some i.label.toText
  subject := i.subject.toText
  arguments := i.op.arguments

end SLanguage
