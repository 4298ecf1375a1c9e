import SLanguage.Program.Basic

/-!
Summaries: the facts about a program that are shown beside its listing. Counts are
64-bit words, which is the width they have where summaries are exchanged.
-/

namespace SLanguage

structure Summary where
  name : String
  displayName : String
  degree : UInt64
  instructionCount : UInt64
  basicCount : UInt64
  syntheticCount : UInt64
  perArchitecture : List (Architecture × UInt64)
  requiredArchitecture : Architecture
  functions : List String
  labels : List Label
  vars : List Variable
deriving DecidableEq, Repr

/-- How many instructions need the architecture, as far as the summary tells. -/
def Summary.needing (s : Summary) (a : Architecture) : UInt64 :=
  (s.perArchitecture.lookup a).getD 0

def Program.countNeeding (p : Program) (a : Architecture) : Nat :=
  p.instructions.toList.countP fun i => i.kind.architecture == a

def Program.summary (p : Program) : Summary where
  name := p.header.name
  displayName := p.header.displayName
  degree := UInt64.ofNat p.degree
  instructionCount := UInt64.ofNat p.size
  basicCount := UInt64.ofNat (p.size - p.countSynthetic)
  syntheticCount := UInt64.ofNat p.countSynthetic
  perArchitecture := Architecture.all.map fun a => (a, UInt64.ofNat (p.countNeeding a))
  requiredArchitecture := p.requiredArchitecture
  functions := p.callees
  labels := p.labels
  vars := p.vars

end SLanguage
