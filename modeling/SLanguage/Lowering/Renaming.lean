import SLanguage.Instruction.Basic

/-!
Renamings: finite maps on variables and labels. A name that is not in a map stays.
-/

namespace SLanguage

structure Renaming where
  vars : List (Variable × Variable) := []
  labels : List (Label × Label) := []

namespace Renaming

def var (r : Renaming) (v : Variable) : Variable :=
  (r.vars.lookup v).getD v

def label (r : Renaming) (l : Label) : Label :=
  (r.labels.lookup l).getD l

def call (r : Renaming) (c : Call) : Call :=
  c.rename r.var

def instruction (r : Renaming) (i : Instruction) : Instruction :=
  i.rename r.var r.label

end Renaming

end SLanguage
