import SLanguage.Instruction.Basic

/-!
Supply of fresh names. The supply knows the highest label number and the highest work
serial that it has seen or handed out, and hands out the next one. After the last
serial there is no name left, and asking again changes nothing.
-/

namespace SLanguage

inductive OutOfNames where
  | labels
  | workVariables
deriving DecidableEq, Repr

def OutOfNames.message : OutOfNames → String
  | .labels => "no fresh label numbers left"
  | .workVariables => "no fresh work-variable serials left"

structure Names where
  highestLabel : Nat := 0
  highestWork : Nat := 0
deriving DecidableEq, Repr

namespace Names

def nextLabel (names : Names) : Nat :=
  names.highestLabel + 1

def nextWork (names : Names) : Nat :=
  names.highestWork + 1

def reserveLabel (names : Names) : Label → Names
  | .numbered n => { names with highestLabel := max names.highestLabel n.val }
  | _ => names

def reserveVariable (names : Names) : Variable → Names
  | .work n => { names with highestWork := max names.highestWork n.val }
  | _ => names

/-- Moves past every name that an instruction uses. -/
def reserve (names : Names) (i : Instruction) : Names :=
  let names := names.reserveLabel i.label
  let names := names.reserveLabel (i.target?.getD .empty)
  i.vars.foldl reserveVariable names

def drawLabel (names : Names) : Except OutOfNames (Label × Names) :=
  match Serial.ofNat? names.nextLabel with
  | some n => .ok (.numbered n, { names with highestLabel := n.val })
  | none => .error .labels

def drawWork (names : Names) : Except OutOfNames (Variable × Names) :=
  match Serial.ofNat? names.nextWork with
  | some n => .ok (.work n, { names with highestWork := n.val })
  | none => .error .workVariables

end Names

/-- Work that draws fresh names. What was drawn stays drawn when the work fails. -/
abbrev Drawing (ε α : Type) := ExceptT ε (StateM Names) α

namespace Drawing

def label {ε : Type} (exhausted : OutOfNames → ε) : Drawing ε Label := do
  match (← get).drawLabel with
  | .ok (l, names) => set names; return l
  | .error e => throw (exhausted e)

def work {ε : Type} (exhausted : OutOfNames → ε) : Drawing ε Variable := do
  match (← get).drawWork with
  | .ok (v, names) => set names; return v
  | .error e => throw (exhausted e)

end Drawing

end SLanguage
