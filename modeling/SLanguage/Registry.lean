import SLanguage.CallGraph
import SLanguage.Expansion.Cached

/-!
The registry of main programs and functions. What is registered stays, under names
that nothing else of its sort has, and calls only functions of the registry, in no
cycle. A program is registered by itself or together with functions of its own, and
nothing is registered where an error is answered.
-/

namespace SLanguage

inductive RegistrationError where
  | duplicateMain (name : String)
  | duplicateFunction (name : String)
  | load (cause : Refusal)
deriving DecidableEq, Repr

def RegistrationError.message : RegistrationError → String
  | .duplicateMain name => s!"a main program named `{name}` is already registered"
  | .duplicateFunction name => s!"a function named `{name}` is already registered"
  | .load cause => cause.message

structure Registry where
  mains : Catalog Cached := ∅
  functions : Functions := ∅

namespace Registry

def load (d : Definition) (role : Role) : Except RegistrationError Program :=
  (Program.ofDefinition d role).mapError .load

def check (functions : Functions) (roots : List Program) : Except RegistrationError Unit :=
  (CallGraph.check functions roots).mapError .load

/-- The main programs with one more, unless its name is taken. -/
def withMain (r : Registry) (p : Program) : Except RegistrationError (Catalog Cached) :=
  (r.mains.insert p.keys { program := p }).mapError fun _ => .duplicateMain p.name

/-- The functions with one more, unless its name is taken. -/
def withFunction (functions : Functions) (p : Program) :
    Except RegistrationError Functions :=
  (functions.add p).mapError fun _ => .duplicateFunction p.name

/-- Registers a main program that calls registered functions. -/
def enterMain (r : Registry) (d : Definition) : Except RegistrationError (Program × Registry) := do
  let p ← load d .main
  let mains ← r.withMain p
  check r.functions [p]
  return (p, { r with mains })

/-- Registers a function that calls registered functions. -/
def enterFunction (r : Registry) (d : Definition) :
    Except RegistrationError (Program × Registry) := do
  let p ← load d .function
  let functions ← withFunction r.functions p
  check functions [p]
  return (p, { r with functions })

/-- The functions of a bundle, whose names differ. -/
def loadFunctions : List Definition → Functions → Except RegistrationError Functions
  | [], functions => .ok functions
  | d :: rest, functions => do
    let p ← load d .function
    match functions.add p with
    | .ok functions => loadFunctions rest functions
    | .error _ => throw (.load (.duplicateDefinition p.name))

/-- Registers a main program and the functions that come with it. -/
def enterBundle (r : Registry) (b : Bundle) : Except RegistrationError (Program × Registry) := do
  let p ← load b.main .main
  let own ← loadFunctions b.functions ∅
  let mains ← r.withMain p
  let functions ← own.items.foldlM withFunction r.functions
  check functions (p :: own.items)
  return (p, { mains, functions })

def find? (r : Registry) (name : String) : Option Cached :=
  r.mains.find? name

/-- Display names in the order of their folded texts. -/
def sortedNames (programs : List Program) : List String :=
  (programs.map fun p => p.header.displayName).mergeSort fun a b =>
    decide (Text.fold a ≤ Text.fold b)

def listMains (r : Registry) : List String :=
  sortedNames (r.mains.items.map Cached.program)

def listFunctions (r : Registry) : List String :=
  sortedNames r.functions.items

end Registry

end SLanguage
