import SLanguage.Catalog
import SLanguage.Program.Basic

/-!
Tables of functions, in which a callee is found by its name or its display name.
-/

namespace SLanguage

abbrev Functions := Catalog Program

namespace Functions

/-- Enters a function, or answers with the function that holds its name. -/
def add (functions : Functions) (p : Program) : Except Program Functions :=
  functions.insert p.keys p

/-- Enters functions in order. One whose name is taken is left out. -/
def ofPrograms (programs : List Program) : Functions :=
  programs.foldl (fun functions p => (functions.add p).toOption.getD functions) ∅

theorem mem_items_of_find? {functions : Functions} {name : String} {p : Program}
    (h : functions.find? name = some p) : p ∈ functions.items :=
  Catalog.mem_items_of_findKey? h

end Functions

end SLanguage
