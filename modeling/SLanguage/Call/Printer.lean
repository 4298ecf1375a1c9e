import SLanguage.Call.Basic

/-!
The text of a call. Arguments are separated by commas without blanks, and a nested
call stands in parentheses with its name first: `x1,(Successor,x2),(Const7)`.
-/

namespace SLanguage

mutual

def Argument.toText : Argument → String
  | .var v => v.toText
  | .call f [] => "(" ++ f ++ ")"
  | .call f (a :: as) => "(" ++ f ++ "," ++ Argument.listText (a :: as) ++ ")"

def Argument.listText : List Argument → String
  | [] => ""
  | [a] => a.toText
  | a :: b :: as => a.toText ++ "," ++ Argument.listText (b :: as)

end

def Call.argumentList (c : Call) : String :=
  Argument.listText c.arguments

def Call.toText (c : Call) : String :=
  (Argument.call c.function c.arguments).toText

instance : ToString Call := ⟨Call.toText⟩

end SLanguage
