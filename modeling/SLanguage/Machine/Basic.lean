import SLanguage.Amount
import SLanguage.Attempt
import SLanguage.Machine.Error
import SLanguage.Program.Basic

/-!
The machine. It holds the index of the instruction that runs next, none once it has
halted, the store and the cycles used. One step runs one instruction: its effect on
the store, the label that it jumps to, and the cycles of the call it makes, if any.
A step that fails has no effect.
-/

namespace SLanguage

/-- What a call gives back. -/
structure Yield where
  value : Nat
  cycles : Nat
deriving DecidableEq, Repr

/-- A way to answer calls whose arguments are read from a store. -/
abbrev Answering := Call → Store → Attempt RunError Yield

structure Effect where
  store : Store
  jump : Label := .empty
  callCycles : Nat := 0

def Instruction.effect (answering : Answering) (i : Instruction) (s : Store) :
    Attempt RunError Effect :=
  let value := s.get i.subject
  let jumpIf (condition : Bool) (target : Label) : Effect :=
    { store := s, jump := if condition then target else .empty }
  match i.op with
  | .increase => return { store := s.set i.subject (min (value + 1) Store.largest) }
  | .decrease => return { store := s.set i.subject (value - 1) }
  | .neutral => return { store := s }
  | .zeroVariable => return { store := s.set i.subject 0 }
  | .assignment source => return { store := s.set i.subject (s.get source) }
  | .constantAssignment k => return { store := s.set i.subject (min k.toNat Store.largest) }
  | .gotoLabel target => return { store := s, jump := target }
  | .jumpNotZero target => return jumpIf (value ≠ 0) target
  | .jumpZero target => return jumpIf (value = 0) target
  | .jumpEqualConstant k target => return jumpIf (value = k.toNat) target
  | .jumpEqualVariable other target => return jumpIf (value = s.get other) target
  | .quote c => do
    let y ← answering c s
    return { store := s.set i.subject y.value, callCycles := y.cycles }
  | .jumpEqualFunction c target => do
    let y ← answering c s
    return { jumpIf (value = y.value) target with callCycles := y.cycles }

/-- The index that runs after the one given: the next one after the empty label, none
after `EXIT` or past the end. -/
def Program.follow (p : Program) (index : Nat) : Label → Except RunError (Option Nat)
  | .empty => .ok (if index + 1 < p.size then some (index + 1) else none)
  | .exit => .ok none
  | .numbered n =>
    match p.position? (.numbered n) with
    | some k => .ok (some k)
    | none => .error (.undefinedLabel p.name (.numbered n))

structure Machine where
  next? : Option Nat
  store : Store
  cycles : Nat := 0

/-- A step that was made: the instruction that ran, what it cost with its call, and
the machine after it. -/
structure Visit where
  index : Nat
  cost : Nat
  after : Machine

namespace Machine

def start (p : Program) (s : Store) : Machine where
  next? := if p.size = 0 then none else some 0
  store := s

/-- A machine with the inputs in `x1, x2, …`. -/
def ofInputs (p : Program) (inputs : List Int64) : Machine :=
  start p (Store.ofInputs (inputs.map Store.natural))

def isRunning (m : Machine) : Bool :=
  m.next?.isSome

/-- Runs one instruction, or none if the machine has halted. -/
def step (answering : Answering) (p : Program) (m : Machine) :
    Attempt RunError (Option Visit) :=
  match m.next? with
  | none => return none
  | some index =>
    match p.instructions[index]? with
    | none => return none
    | some i => do
      let e ← i.effect answering m.store
      let next? ← Attempt.ofExcept (p.follow index e.jump)
      let cost := Amount.sum i.baseCycles e.callCycles
      return some {
        index, cost
        after := { next?, store := e.store, cycles := Amount.sum m.cycles cost } }

/-- Steps until the machine halts or a step fails, and no more often than the number
given: the machine as it then stands, with the reason of a failure. -/
def drive (answering : Answering) (p : Program) :
    Nat → Machine → Option (Machine × Option RunError)
  | 0, _ => none
  | n + 1, m =>
    match (m.step answering p).run with
    | none => none
    | some (.error e) => some (m, some e)
    | some (.ok none) => some (m, none)
    | some (.ok (some v)) => drive answering p n v.after

/-- The machine once it has halted. -/
def toHalt (answering : Answering) (p : Program) (limit : Nat) (m : Machine) :
    Attempt RunError Machine :=
  match drive answering p limit m with
  | none => Attempt.unfinished
  | some (m, none) => return m
  | some (_, some e) => throw e

def listing (s : Store) (vars : List Variable) : List (Variable × Int64) :=
  vars.map fun v => (v, Int64.ofNat (s.get v))

/-- The machine as it is shown after the instruction of the given index. -/
def snapshot (p : Program) (m : Machine) (current? : Option Nat) : Snapshot where
  current? := current?.map UInt64.ofNat
  next? := m.next?.map UInt64.ofNat
  isRunning := m.isRunning
  target? := current?.bind fun index => p.instructions[index]?.map Instruction.subject
  cycles := UInt64.ofNat m.cycles
  result := Int64.ofNat m.store.result
  values := listing m.store p.vars

def outcome (p : Program) (m : Machine) : Outcome where
  result := Int64.ofNat m.store.result
  cycles := UInt64.ofNat m.cycles
  values := listing m.store p.vars

end Machine

end SLanguage
