import SLanguage.Functions

/-!
The call graph. Programs are told apart by their role and folded name. The check
walks the graph from its roots, callees in the order of their names, and stops at
the first name that no function answers to and at the first call back to a program
on the path. A walk ends because every step down the path takes a function of the
table that is not on the path yet.
-/

namespace SLanguage

abbrev ProgramId := Role × String

def Program.graphId (p : Program) : ProgramId :=
  (p.header.role, Text.fold p.header.name)

namespace CallGraph

/-- The functions of the table that are off the path. -/
def unvisited (functions : Functions) (path : List Program) : Nat :=
  functions.items.countP fun p => !(path.map Program.graphId).contains p.graphId

theorem countP_lt_of_mem {α : Type} {p q : α → Bool} (l : List α)
    (weaker : ∀ x, q x = true → p x = true) {a : α} (mem : a ∈ l) (holds : p a = true)
    (fails : q a = false) : l.countP q < l.countP p := by
  induction l with
  | nil => cases mem
  | cons x l ih =>
    have le : l.countP q ≤ l.countP p := List.countP_mono_left fun y _ => weaker y
    by_cases eq : a = x
    · subst eq
      simp only [List.countP_cons, holds, fails]
      simp
      omega
    · have lt := ih (by simpa [eq] using mem)
      simp only [List.countP_cons]
      by_cases hq : q x = true
      · simp only [hq, weaker x hq]
        simp
        exact lt
      · simp only [hq]
        simp
        omega

theorem unvisited_append_lt {functions : Functions} {path : List Program} {p : Program}
    (mem : p ∈ functions.items) (off : ¬ p.graphId ∈ path.map Program.graphId) :
    unvisited functions (path ++ [p]) < unvisited functions path := by
  refine countP_lt_of_mem _ ?_ mem ?_ ?_
  · intro q h
    simp only [List.map_append, List.contains_eq_mem, List.mem_append, Bool.not_eq_true',
      decide_eq_false_iff_not] at h ⊢
    exact fun inside => h (Or.inl inside)
  · simpa using off
  · simp

/-- Walks the callees of the last program of a path. The answer lists the programs
all of whose callees have been walked. -/
def walk (functions : Functions) (path : List Program) (caller : Program)
    (done : List ProgramId) : List String → Except Refusal (List ProgramId)
  | [] => .ok done
  | name :: rest =>
    match _found : functions.find? name with
    | none => .error (.unknownFunction caller.name name)
    | some callee =>
      if callee.graphId ∈ done then walk functions path caller done rest
      else if _onPath : callee.graphId ∈ path.map Program.graphId then
        let cycle := path.dropWhile fun p => p.graphId != callee.graphId
        .error (.recursiveCall (cycle.map Program.name ++ [callee.name]))
      else do
        let done ← walk functions (path ++ [callee]) callee done callee.callees
        walk functions path caller (callee.graphId :: done) rest
termination_by names => (unvisited functions path, names.length)
decreasing_by
  · exact Prod.Lex.right _ (Nat.lt_succ_self _)
  · exact Prod.Lex.left _ _ (unvisited_append_lt (Functions.mem_items_of_find? _found) _onPath)
  · exact Prod.Lex.right _ (Nat.lt_succ_self _)

def checkFrom (functions : Functions) (done : List ProgramId) :
    List Program → Except Refusal Unit
  | [] => .ok ()
  | root :: rest =>
    if root.graphId ∈ done then checkFrom functions done rest
    else do
      let done ← walk functions [root] root done root.callees
      checkFrom functions (root.graphId :: done) rest

/-- Refuses roots from which a call leads to no function or back to its caller. -/
def check (functions : Functions) (roots : List Program) : Except Refusal Unit :=
  checkFrom functions [] roots

end CallGraph

end SLanguage
