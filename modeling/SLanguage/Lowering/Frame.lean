import SLanguage.Functions
import SLanguage.Lowering.Error
import SLanguage.Lowering.Renaming

/-!
Splicing a callee into a caller. The degree-0 body of the callee gets fresh names
for all its own: a work variable of the caller, its slot, for the result, for every
input up to the number of arguments or of inputs used, whichever is more, and for
every work variable; a label for every numbered label; and, if `EXIT` is to end the
body only, a label for what follows the body. Names are drawn in this order.
-/

namespace SLanguage

/-- Where a jump to `EXIT` in a spliced body goes. -/
inductive ExitRule where
  | redirect
  | keep
deriving DecidableEq, Repr

structure Frame where
  callee : Program
  result : Variable
  inputs : List Variable
  works : List Variable
  body : List Instruction
  endLabel? : Option Label

namespace Frame

def freshLabels : List Label → ExitRule → Drafting (List (Label × Label))
  | [], _ => return []
  | .numbered n :: rest, rule => do
    let l ← Drafting.label
    return (.numbered n, l) :: (← freshLabels rest rule)
  | .exit :: rest, .redirect => do
    let l ← Drafting.label
    return (.exit, l) :: (← freshLabels rest .redirect)
  | _ :: rest, rule => freshLabels rest rule

/-- An instruction without its place in the program it comes from. -/
def detached (i : Instruction) : Instruction where
  subject := i.subject
  op := i.op
  label := i.label

def splice (functions : Functions) (c : Call) (rule : ExitRule) : Drafting Frame := do
  let some callee := functions.find? c.function | throw (.unknownFunction c.function)
  let y ← Drafting.work
  let inputs ← Drafting.works (max c.arguments.length callee.arity)
  let works ← Drafting.works callee.works.size
  let labels ← freshLabels callee.labels rule
  let map : Renaming := {
    vars := (.result, y) ::
      ((Variable.firstInputs inputs.length).zip inputs ++ callee.works.toList.zip works)
    labels }
  return {
    callee, inputs, works
    result := y
    body := callee.instructions.toList.map fun i => detached (map.instruction i)
    endLabel? := labels.lookup .exit }

end Frame

end SLanguage
