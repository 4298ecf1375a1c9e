import SLanguage.Lowering.Frame

/-!
The lowering rules. Each synthetic instruction becomes a block of instructions that
does the same in smaller steps, with fresh labels and work variables. The block
carries the label of the instruction on its first instruction, or on a neutral one
in front if that is taken. Work variables of a block keep what an earlier pass left
in them, so every block is written to work from any leftover or to clear its own.
-/

namespace SLanguage.Lowering

def increase (v : Variable) : Instruction := { subject := v, op := .increase }

def decrease (v : Variable) : Instruction := { subject := v, op := .decrease }

def neutral (v : Variable) : Instruction := { subject := v, op := .neutral }

def zero (v : Variable) : Instruction := { subject := v, op := .zeroVariable }

def assign (v source : Variable) : Instruction := { subject := v, op := .assignment source }

def jumpNotZero (v : Variable) (l : Label) : Instruction := { subject := v, op := .jumpNotZero l }

def jumpZero (v : Variable) (l : Label) : Instruction := { subject := v, op := .jumpZero l }

def goto (l : Label) : Instruction := { subject := .result, op := .gotoLabel l }

def labelled (l : Label) (i : Instruction) : Instruction := { i with label := l }

def withEntry (l : Label) (block : List Instruction) : List Instruction :=
  if l.isEmpty then block
  else match block with
    | first :: rest =>
      if first.label.isEmpty then labelled l first :: rest
      else labelled l (neutral .result) :: block
    | [] => [labelled l (neutral .result)]

/-- A loop that counts down; the own label, if there is one, is the label of the loop. -/
def clearing (v : Variable) (own : Label) : Drafting (List Instruction) := do
  let loop ← if own.isEmpty then Drafting.label else pure own
  return [labelled loop (decrease v), jumpNotZero v loop]

def jumping (target : Label) : Drafting (List Instruction) := do
  let z ← Drafting.work
  return [increase z, jumpNotZero z target]

/-- Moves `w` to a work variable and back, counting `v` up on the way back. -/
def copying (v w : Variable) : Drafting (List Instruction) := do
  if v = w then return [neutral v]
  let away ← Drafting.label
  let back ← Drafting.label
  let done ← Drafting.label
  let z ← Drafting.work
  return [
    zero v,
    jumpNotZero w away,
    goto done,
    labelled away (decrease w),
    increase z,
    jumpNotZero w away,
    labelled back (decrease z),
    increase v,
    increase w,
    jumpNotZero z back,
    labelled done (neutral v)]

def countingUp (v : Variable) (k : UInt64) : List Instruction :=
  zero v :: List.replicate k.toNat (increase v)

def testingZero (v : Variable) (target : Label) : Drafting (List Instruction) := do
  let done ← Drafting.label
  return [jumpNotZero v done, goto target, labelled done (neutral .result)]

def testingConstant (v : Variable) (k : UInt64) (target : Label) :
    Drafting (List Instruction) := do
  let done ← Drafting.label
  let z ← Drafting.work
  let countDown := (List.replicate k.toNat [jumpZero z done, decrease z]).flatten
  return assign z v :: countDown ++
    [jumpNotZero z done, goto target, labelled done (neutral .result)]

/-- Counts copies of both variables down until one of them is zero. -/
def testingVariable (v w : Variable) (target : Label) : Drafting (List Instruction) := do
  let done ← Drafting.label
  let loop ← Drafting.label
  let last ← Drafting.label
  let a ← Drafting.work
  let b ← Drafting.work
  return [
    assign a v,
    assign b w,
    labelled loop (jumpZero a last),
    jumpZero b done,
    decrease a,
    decrease b,
    goto loop,
    labelled last (jumpZero b target),
    labelled done (neutral .result)]

/-- Puts an argument, if there is one, into the slot of an input. -/
def bindInput (slot : Variable) : Option Argument → Instruction
  | some (.var v) => assign slot v
  | some (.call f arguments) => { subject := slot, op := .quote ⟨f, arguments⟩ }
  | none => zero slot

def bindInputs : List Variable → List Argument → List Instruction
  | [], _ => []
  | slot :: slots, [] => bindInput slot none :: bindInputs slots []
  | slot :: slots, a :: as => bindInput slot (some a) :: bindInputs slots as

/-- The body of the callee between a prologue that sets every slot and a copy of the
result into `v`. -/
def calling (functions : Functions) (v : Variable) (c : Call) :
    Drafting (List Instruction) := do
  let frame ← Frame.splice functions c .redirect
  return zero frame.result :: bindInputs frame.inputs c.arguments ++
    frame.works.map zero ++ frame.body ++
    [labelled (frame.endLabel?.getD .empty) (assign v frame.result)]

def testingCall (v : Variable) (c : Call) (target : Label) :
    Drafting (List Instruction) := do
  let z ← Drafting.work
  return [
    { subject := z, op := .quote c },
    { subject := v, op := .jumpEqualVariable z target }]

/-- Lowers an instruction one step. A basic instruction stays as it is. -/
def lower (functions : Functions) (i : Instruction) : Drafting (List Instruction) :=
  let v := i.subject
  match i.op with
  | .increase | .decrease | .jumpNotZero _ | .neutral => return [i]
  | .zeroVariable => clearing v i.label
  | .gotoLabel l => return withEntry i.label (← jumping l)
  | .assignment w => return withEntry i.label (← copying v w)
  | .constantAssignment k => return withEntry i.label (countingUp v k)
  | .jumpZero l => return withEntry i.label (← testingZero v l)
  | .jumpEqualConstant k l => return withEntry i.label (← testingConstant v k l)
  | .jumpEqualVariable w l => return withEntry i.label (← testingVariable v w l)
  | .quote c => return withEntry i.label (← calling functions v c)
  | .jumpEqualFunction c l => return withEntry i.label (← testingCall v c l)

end SLanguage.Lowering
