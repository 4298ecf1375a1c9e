/-!
JSON values. An object keeps its fields in order. A number is an integer or, when
it is written with a fraction or an exponent or as minus zero, a real that is kept
as its text: no shape of this library takes one, however whole it is.
-/

namespace SLanguage

inductive Json where
  | null
  | bool (b : Bool)
  | int (n : Int)
  | real (text : String)
  | str (s : String)
  | arr (items : List Json)
  | obj (fields : List (String × Json))

namespace Json

def fields? : Json → Option (List (String × Json))
  | obj fields => some fields
  | _ => none

/-- A field of an object, where a missing field and `null` are the same. -/
def get? (j : Json) (name : String) : Option Json :=
  match j with
  | obj fields =>
    match fields.lookup name with
    | some null => none
    | found => found
  | _ => none

end Json

end SLanguage
