import SLanguage.Variable

/-!
Calls `(F, a1, …, an)`. An argument is a variable of the caller or another call,
to any depth, and argument number i is bound to the input variable x(i) of the
callee. Traversals go from left to right.
-/

namespace SLanguage

inductive Argument where
  | var (v : Variable)
  | call (function : String) (arguments : List Argument)
deriving Repr

structure Call where
  function : String
  arguments : List Argument
deriving Repr

mutual

def Argument.same : Argument → Argument → Bool
  | .var v, .var w => v == w
  | .call f as, .call g bs => f == g && Argument.sameAll as bs
  | _, _ => false

def Argument.sameAll : List Argument → List Argument → Bool
  | [], [] => true
  | a :: as, b :: bs => Argument.same a b && Argument.sameAll as bs
  | _, _ => false

end

mutual

theorem Argument.same_iff : ∀ a b : Argument, Argument.same a b = true ↔ a = b
  | .var v, .var w => by simp [Argument.same]
  | .call f as, .call g bs => by simp [Argument.same, Argument.sameAll_iff as bs]
  | .var _, .call _ _ => by simp [Argument.same]
  | .call _ _, .var _ => by simp [Argument.same]

theorem Argument.sameAll_iff : ∀ as bs : List Argument,
    Argument.sameAll as bs = true ↔ as = bs
  | [], [] => by simp [Argument.sameAll]
  | a :: as, b :: bs => by
    simp [Argument.sameAll, Argument.same_iff a b, Argument.sameAll_iff as bs]
  | [], _ :: _ => by simp [Argument.sameAll]
  | _ :: _, [] => by simp [Argument.sameAll]

end

instance : DecidableEq Argument := fun a b =>
  decidable_of_iff (Argument.same a b = true) (Argument.same_iff a b)

deriving instance DecidableEq for Call

mutual

def Argument.vars : Argument → List Variable
  | .var v => [v]
  | .call _ arguments => Argument.variablesOf arguments

def Argument.variablesOf : List Argument → List Variable
  | [] => []
  | a :: as => a.vars ++ Argument.variablesOf as

end

mutual

def Argument.functions : Argument → List String
  | .var _ => []
  | .call f arguments => f :: Argument.functionsOf arguments

def Argument.functionsOf : List Argument → List String
  | [] => []
  | a :: as => a.functions ++ Argument.functionsOf as

end

mutual

/-- How deep calls are nested: 0 for a variable. -/
def Argument.depth : Argument → Nat
  | .var _ => 0
  | .call _ arguments => 1 + Argument.depthOf arguments

def Argument.depthOf : List Argument → Nat
  | [] => 0
  | a :: as => max a.depth (Argument.depthOf as)

end

mutual

def Argument.rename (var : Variable → Variable) : Argument → Argument
  | .var v => .var (var v)
  | .call f arguments => .call f (Argument.renameAll var arguments)

def Argument.renameAll (var : Variable → Variable) : List Argument → List Argument
  | [] => []
  | a :: as => a.rename var :: Argument.renameAll var as

end

theorem Argument.renameAll_eq_map (var : Variable → Variable) (as : List Argument) :
    Argument.renameAll var as = as.map (Argument.rename var) := by
  induction as with
  | nil => rfl
  | cons a as ih => simp [Argument.renameAll, ih]

namespace Call

def vars (c : Call) : List Variable :=
  Argument.variablesOf c.arguments

/-- The functions called anywhere in the tree, the outermost first. -/
def functions (c : Call) : List String :=
  c.function :: Argument.functionsOf c.arguments

def depth (c : Call) : Nat :=
  1 + Argument.depthOf c.arguments

def rename (var : Variable → Variable) (c : Call) : Call :=
  ⟨c.function, Argument.renameAll var c.arguments⟩

end Call

end SLanguage
