import SLanguage.Expansion.Basic

/-!
Ancestry: the instructions that an instruction was lowered from, nearest first.
Links are followed at most as often as the arena has instructions, which is every
link there is where they form no cycle.
-/

namespace SLanguage.Expansion

/-- The instruction with an id, as it stood in the degree that made it. -/
def instruction? (e : Expansion) (id : Nat) : Option Instruction :=
  e.arena[id]?.filter fun i => i.id == id

def climb (e : Expansion) : Nat → Option Nat → List Instruction
  | links + 1, some id =>
    match e.instruction? id with
    | some parent => parent :: e.climb links parent.origin?
    | none => []
  | _, _ => []

def ancestry (e : Expansion) (i : Instruction) : List Instruction :=
  e.climb e.arena.size i.origin?

def lineWithAncestry (e : Expansion) (i : Instruction) : String :=
  " >>> ".intercalate ((i :: e.ancestry i).map Instruction.line)

def listing? (e : Expansion) (d : Nat) : Option String :=
  (e.generation? d).map fun p =>
    "\n".intercalate (p.instructions.toList.map e.lineWithAncestry)

end SLanguage.Expansion
