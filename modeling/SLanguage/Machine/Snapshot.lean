import SLanguage.Store

/-!
What is shown of a run: a snapshot of a machine between two instructions, and the
outcome of a run that halted. Both list the declared variables with their values.
-/

namespace SLanguage

structure Snapshot where
  /-- The index of the instruction that has just run. -/
  current? : Option UInt64
  /-- The index of the instruction that runs next, unless the machine has halted. -/
  next? : Option UInt64
  isRunning : Bool
  /-- The subject of the instruction that has just run. -/
  target? : Option Variable
  cycles : UInt64
  result : Int64
  values : List (Variable × Int64)
deriving DecidableEq, Repr

structure Outcome where
  result : Int64
  cycles : UInt64
  values : List (Variable × Int64)
deriving DecidableEq, Repr

def Snapshot.value? (s : Snapshot) (v : Variable) : Option Int64 :=
  s.values.lookup v

def Outcome.value? (o : Outcome) (v : Variable) : Option Int64 :=
  o.values.lookup v

end SLanguage
