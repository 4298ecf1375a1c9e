import SLanguage.Architecture
import SLanguage.Machine.Snapshot
import Std.Data.TreeMap

/-!
The runs of each user, oldest first and numbered from 1. A run is recorded when its
program has halted or when a session on it is stopped.
-/

namespace SLanguage

inductive RunMode where
  | execution
  | debug
deriving DecidableEq, Repr

structure PastRun where
  number : UInt64
  mode : RunMode
  program : String
  degree : UInt64
  architecture : Architecture
  inputs : List Int64
  outcome : Outcome
deriving DecidableEq, Repr

structure History where
  users : Std.TreeMap String (List PastRun) := ∅

namespace History

def runs (h : History) (user : String) : List PastRun :=
  h.users.getD user []

/-- Records a run under the next number of a user, which is given back. -/
def record (h : History) (user : String) (r : PastRun) : UInt64 × History :=
  let number := UInt64.ofNat ((h.runs user).length + 1)
  (number, ⟨h.users.insert user (h.runs user ++ [{ r with number }])⟩)

theorem runs_record (h : History) (user other : String) (r : PastRun) :
    (h.record user r).2.runs other =
      if user = other then h.runs user ++ [{ r with number := (h.record user r).1 }]
      else h.runs other := by
  simp only [record, runs, Std.TreeMap.getD_insert, Std.LawfulEqCmp.compare_eq_iff_eq]

end History

end SLanguage
