import SLanguage.Text.Blank

/-!
Case folding. Names are compared without regard to the case of the letters A to Z;
every other character stands for itself, so `Ä` and `ä` stay apart. The key of a
name is what it is filed under: the name trimmed and folded.
-/

namespace SLanguage.Text

def fold (s : String) : String :=
  String.ofList (s.toList.map Char.toLower)

def key (s : String) : String :=
  fold (trim s)

@[simp] theorem toList_fold (s : String) : (fold s).toList = s.toList.map Char.toLower := by
  simp [fold]

end SLanguage.Text
