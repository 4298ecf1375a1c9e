import SLanguage.Instruction.Printer
import SLanguage.Program.Definition
import SLanguage.Program.Names
import Std.Data.TreeMap
import Std.Data.TreeSet

/-!
Programs. Assembly numbers a list of instructions from 1, refuses a label that is
carried twice and a jump to a numbered label that nothing carries, and keeps what
later work looks up: where each label stands, which variables occur, and the names
that are still free. Loading reads the records of a definition first, with the
position of a record as the id of its instruction.
-/

namespace SLanguage

inductive Role where
  | main
  | function
deriving DecidableEq, Repr

structure Header where
  name : String
  displayName : String
  role : Role
deriving DecidableEq, Repr

structure Program where
  header : Header
  degree : Nat
  instructions : Array Instruction
  positions : Std.TreeMap Label Nat
  inputs : Std.TreeSet Variable
  works : Std.TreeSet Variable
  names : Names

namespace Program

def numbered (instructions : List Instruction) : List Instruction :=
  instructions.mapIdx fun k i => { i with number := k + 1 }

/-- Files every label under the position of the instruction that carries it. -/
def indexLabels (program : String) :
    List Instruction → Nat → Std.TreeMap Label Nat → Except Refusal (Std.TreeMap Label Nat)
  | [], _, positions => .ok positions
  | i :: rest, k, positions =>
    if i.label.isEmpty then indexLabels program rest (k + 1) positions
    else if positions.contains i.label then .error (.duplicateLabel program i.label)
    else indexLabels program rest (k + 1) (positions.insert i.label k)

/-- The first numbered instruction whose jump goes nowhere, with its target. -/
def strayJump? (positions : Std.TreeMap Label Nat) (instructions : List Instruction) :
    Option (Label × Nat) :=
  instructions.findSome? fun i =>
    match i.target? with
    | some (.numbered n) =>
      if positions.contains (.numbered n) then none else some (.numbered n, i.number)
    | _ => none

def assemble (header : Header) (degree : Nat) (instructions : List Instruction)
    (names : Names) : Except Refusal Program := do
  let instructions := numbered instructions
  let positions ← indexLabels header.name instructions 0 ∅
  if let some (label, number) := strayJump? positions instructions then
    throw (.undefinedLabel header.name label number)
  let occurring := instructions.flatMap Instruction.vars
  return {
    header, degree, positions
    instructions := instructions.toArray
    inputs := .ofList (occurring.filter Variable.isInput)
    works := .ofList (occurring.filter Variable.isWork)
    names := instructions.foldl Names.reserve names }

def loadRecords : List Record → Nat → Except Refusal (List Instruction)
  | [], _ => return []
  | r :: rest, k => do
    let i ← r.instruction
    return { i with id := Instruction.idAt k } :: (← loadRecords rest (k + 1))

def load (header : Header) (records : List Record) : Except Refusal Program := do
  if Text.trim header.name = "" then throw .emptyName
  assemble header 0 (← loadRecords records 0) {}

def ofDefinition (d : Definition) (role : Role) : Except Refusal Program :=
  load ⟨Text.trim d.name, Text.trim d.displayName, role⟩ d.records

def name (p : Program) : String :=
  p.header.name

def size (p : Program) : Nat :=
  p.instructions.size

/-- What a program is looked up by: its name and, if it differs, its display name. -/
def keys (p : Program) : List String :=
  let name := Text.fold p.header.name
  let display := Text.fold p.header.displayName
  if display = name then [name] else [name, display]

def position? (p : Program) (l : Label) : Option Nat :=
  p.positions[l]?

/-- The number of inputs, which is the highest input serial in use. -/
def arity (p : Program) : Nat :=
  (p.inputs.max?.map Variable.serial).getD 0

/-- The declared variables: the result, the inputs and the work variables. -/
def vars (p : Program) : List Variable :=
  .result :: (p.inputs.toList ++ p.works.toList)

def jumpsTo (p : Program) (l : Label) : Bool :=
  p.instructions.any fun i => i.target? == some l

def labels (p : Program) : List Label :=
  p.positions.keys ++ (if p.jumpsTo .exit && !p.positions.contains .exit then [.exit] else [])

def calls (p : Program) : List Call :=
  p.instructions.toList.filterMap fun i => i.op.call?

/-- The names of the functions called anywhere, sorted and each once. -/
def callees (p : Program) : List String :=
  (Std.TreeSet.ofList (p.calls.flatMap Call.functions)).toList

def countSynthetic (p : Program) : Nat :=
  p.instructions.toList.countP fun i => !i.isBasic

/-- Whether nothing is left to be lowered. -/
def isBasic (p : Program) : Bool :=
  p.instructions.all Instruction.isBasic

/-- The weakest architecture that runs every instruction. -/
def requiredArchitecture (p : Program) : Architecture :=
  p.instructions.foldl (fun a i => max a i.kind.architecture) .i

def numbersUsingLabel (p : Program) (l : Label) : List Nat :=
  (p.instructions.toList.filter (·.touches l)).map Instruction.number

def numbersMentioning (p : Program) (v : Variable) : List Nat :=
  (p.instructions.toList.filter (·.mentions v)).map Instruction.number

def listing (p : Program) : String :=
  "\n".intercalate (p.instructions.toList.map Instruction.line)

def definition (p : Program) : Definition where
  name := p.header.name
  displayName? := some p.header.displayName
  records := p.instructions.toList.map Instruction.record

end Program

end SLanguage
