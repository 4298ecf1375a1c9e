import SLanguage.Call.Printer
import SLanguage.Instruction.Basic

/-!
The text of an instruction: its command, and the line of a listing, which adds the
number, `B` for basic or `S` for synthetic, the label and the base cycles.
-/

namespace SLanguage

def Operation.command (v : Variable) : Operation → String
  | increase => s!"{v} <- {v} + 1"
  | decrease => s!"{v} <- {v} - 1"
  | jumpNotZero l => s!"IF {v} != 0 GOTO {l}"
  | neutral => s!"{v} <- {v}"
  | zeroVariable => s!"{v} <- 0"
  | gotoLabel l => s!"GOTO {l}"
  | assignment w => s!"{v} <- {w}"
  | constantAssignment k => s!"{v} <- {k.toNat}"
  | jumpZero l => s!"IF {v} = 0 GOTO {l}"
  | jumpEqualConstant k l => s!"IF {v} = {k.toNat} GOTO {l}"
  | jumpEqualVariable w l => s!"IF {v} = {w} GOTO {l}"
  | quote c => s!"{v} <- {c}"
  | jumpEqualFunction c l => s!"IF {v} = {c} GOTO {l}"

/-- A text in the middle of at least `width` columns; a space that cannot be split
evenly goes to the right, and a text that is too long is not cut. -/
def centred (width : Nat) (text : String) : String :=
  let free := width - text.length
  let left := free / 2
  "".pushn ' ' left ++ text ++ "".pushn ' ' (free - left)

namespace Instruction

def command (i : Instruction) : String :=
  i.op.command i.subject

def line (i : Instruction) : String :=
  let sort := if i.isBasic then "B" else "S"
  s!"#{i.number} ({sort}) [{centred 5 i.label.toText}] {i.command} ({i.baseCycles})"

/-- The command after its label, if it has one. -/
def listed (i : Instruction) : String :=
  if i.label.isEmpty then i.command else s!"{i.label}: {i.command}"

end Instruction

end SLanguage
