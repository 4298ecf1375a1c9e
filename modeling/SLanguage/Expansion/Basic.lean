import SLanguage.Attempt
import SLanguage.Lowering.Rules

/-!
Degrees. Degree 0 is the program as loaded, and each further degree lowers every
synthetic instruction of the one before, until none is left. The arena files every
instruction under its id as it stood in the degree that made it, and an instruction
that was lowered from another keeps the id of that one as its origin.

A round in which a call is lowered draws at least one work variable, and without
calls nothing is left after three rounds. So a program is basic, or out of names, after
`roundLimit` rounds at the latest, also where its calls form a cycle.
-/

namespace SLanguage

structure Expansion where
  loaded : Program
  later : Array Program := #[]
  arena : Array Instruction

namespace Expansion

def latest (e : Expansion) : Program :=
  e.later.back?.getD e.loaded

def topDegree (e : Expansion) : Nat :=
  e.later.size

def generations (e : Expansion) : List Program :=
  e.loaded :: e.later.toList

def generation? (e : Expansion) : Nat → Option Program
  | 0 => some e.loaded
  | d + 1 => e.later[d]?

def generation (e : Expansion) (d : Nat) : Except LoweringError Program :=
  match e.generation? d with
  | some p => .ok p
  | none => .error (.degreeOutOfRange d e.topDegree)

/-- Files the instructions that carry the next free id. -/
def file (arena : Array Instruction) (p : Program) : Array Instruction :=
  p.instructions.foldl (fun arena i => if i.id = arena.size then arena.push i else arena) arena

def base (p : Program) : Expansion where
  loaded := p
  arena := file #[] p

/-- Gives the instructions of a block their ids and the origin they share. -/
def stamp (origin nextId : Nat) (block : List Instruction) : List Instruction :=
  block.mapIdx fun k i => { i with id := Instruction.idAt (nextId + k), origin? := some origin }

def lowerAll (functions : Functions) : List Instruction → Nat → Drafting (List Instruction)
  | [], _ => return []
  | i :: rest, nextId =>
    if i.isBasic then return i :: (← lowerAll functions rest nextId)
    else do
      let block ← Lowering.lower functions i
      return stamp i.id nextId block ++ (← lowerAll functions rest (nextId + block.length))

/-- The generation after a program, with ids from `nextId` on for what is new. -/
def nextGeneration (functions : Functions) (p : Program) (nextId : Nat) :
    Except LoweringError Program := do
  let (drafted, names) := (lowerAll functions p.instructions.toList nextId).run p.names
  let instructions ← drafted
  (Program.assemble p.header (p.degree + 1) instructions names).mapError .assemble

def advance (functions : Functions) (e : Expansion) : Except LoweringError Expansion := do
  let p ← nextGeneration functions e.latest e.arena.size
  return { e with later := e.later.push p, arena := file e.arena p }

def grow (functions : Functions) : Nat → Expansion → Attempt LoweringError Expansion
  | 0, e => if e.latest.isBasic then return e else .unfinished
  | rounds + 1, e =>
    if e.latest.isBasic then return e
    else do grow functions rounds (← .ofExcept (e.advance functions))

/-- The rounds that lower no call, and one for every work variable that is still free. -/
def roundLimit (p : Program) : Nat :=
  3 + (Serial.last - p.names.highestWork)

/-- Every degree of a program. -/
def ofProgram (functions : Functions) (p : Program) : Attempt LoweringError Expansion :=
  grow functions (roundLimit p) (base p)

end Expansion

end SLanguage
