/-!
Blank characters and trimming. A character is blank when it has the Unicode
property White_Space; U+200B, U+FEFF and the separators U+001C to U+001F do not
have it. Trimming removes the blanks at both ends of a text and nothing else.
-/

namespace SLanguage.Text

def isBlank (c : Char) : Bool :=
  let n := c.toNat
  (0x9 ≤ n && n ≤ 0xD) || n == 0x20 || n == 0x85 || n == 0xA0 || n == 0x1680 ||
  (0x2000 ≤ n && n ≤ 0x200A) || n == 0x2028 || n == 0x2029 || n == 0x202F ||
  n == 0x205F || n == 0x3000

def trimChars (cs : List Char) : List Char :=
  ((cs.dropWhile isBlank).reverse.dropWhile isBlank).reverse

def trim (s : String) : String :=
  String.ofList (trimChars s.toList)

@[simp] theorem toList_trim (s : String) : (trim s).toList = trimChars s.toList := by
  simp [trim]

@[simp] theorem trimChars_nil : trimChars [] = [] := rfl

example : (['\t', ' ', Char.ofNat 0x3000, Char.ofNat 0x85].all isBlank) = true := by decide

example : ([Char.ofNat 0x200B, Char.ofNat 0xFEFF, Char.ofNat 0x1C].any isBlank) = false := by
  decide

end SLanguage.Text
