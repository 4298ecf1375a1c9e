import SLanguage.Machine.Basic
import SLanguage.Lowering.Frame

/-!
Calls. The arguments come first, from left to right, and then the callee runs on a
machine of its own until it halts. It is either the function as the table has it, with
the arguments as its inputs, or the same body under fresh names, with the arguments in
the slots of its inputs. Calls are nested in arguments and in bodies alike, and only
down to a limit.
-/

namespace SLanguage

inductive Strategy where
  | interpret
  | inline
deriving DecidableEq, Repr

structure Evaluator where
  functions : Functions
  strategy : Strategy := .interpret
  depthLimit : Nat := 1024
  /-- How many steps a machine may make before its run counts as unfinished. -/
  stepLimit : Nat

/-- What runs for a call, and where it leaves its value. -/
structure Entry where
  program : Program
  store : Store
  result : Variable

namespace Evaluator

def direct (functions : Functions) (c : Call) (arguments : List Nat) :
    Except RunError Entry :=
  match functions.find? c.function with
  | some callee => .ok ⟨callee, .ofInputs arguments, .result⟩
  | none => .error (.unknownFunction c.function)

def spliced (functions : Functions) (c : Call) (arguments : List Nat) :
    Except RunError Entry := do
  let (drafted, names) := (Frame.splice functions c .keep).run {}
  let frame ← drafted.mapError .ofLowering
  let header : Header := ⟨frame.callee.name, frame.callee.name, .function⟩
  let program ← (Program.assemble header 0 frame.body names).mapError (.expand ∘ .assemble)
  return ⟨program, .assign ∅ (frame.inputs.zip arguments), frame.result⟩

def entry (ev : Evaluator) (c : Call) (arguments : List Nat) : Except RunError Entry :=
  match ev.strategy with
  | .interpret => direct ev.functions c arguments
  | .inline => spliced ev.functions c arguments

/-- The values of arguments, each with the cycles it took. A variable takes none. -/
def arguments (answering : Answering) (s : Store) : List Argument → Attempt RunError (List Yield)
  | [] => return []
  | .var v :: rest => return ⟨s.get v, 0⟩ :: (← arguments answering s rest)
  | .call f inner :: rest => do
    let y ← answering ⟨f, inner⟩ s
    return y :: (← arguments answering s rest)

/-- Answers a call that may be nested so many levels deeper. -/
def answer (ev : Evaluator) : Nat → Answering
  | 0, c, _ => throw (.callDepthExceeded c.function ev.depthLimit)
  | room + 1, c, s => do
    let yields ← arguments (answer ev room) s c.arguments
    let e ← Attempt.ofExcept (ev.entry c (yields.map Yield.value))
    let m ← Machine.toHalt (answer ev room) e.program ev.stepLimit (.start e.program e.store)
    return {
      value := m.store.get e.result
      cycles := Amount.sum ((yields.map Yield.cycles).foldl Amount.sum 0) m.cycles }

/-- Answers a call at a level of nesting, counted from 0. -/
def answerAt (ev : Evaluator) (depth : Nat) : Answering :=
  ev.answer (ev.depthLimit - depth)

end Evaluator

end SLanguage
