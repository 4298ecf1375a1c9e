import SLanguage.Json.Basic

/-!
JSON text without blanks. A character below U+0020 and the line ends U+0085, U+2028
and U+2029 are escaped, so that a value always stands on one line.
-/

namespace SLanguage.Json

def hexDigit (n : Nat) : Char :=
  Char.ofNat (if n < 10 then 48 + n else 87 + n)

def escape (c : Char) : String :=
  let n := c.toNat
  if c = '"' then "\\\""
  else if c = '\\' then "\\\\"
  else if n < 0x20 ∨ n = 0x85 ∨ n = 0x2028 ∨ n = 0x2029 then
    "\\u" ++ String.ofList
      [hexDigit (n / 4096 % 16), hexDigit (n / 256 % 16), hexDigit (n / 16 % 16), hexDigit (n % 16)]
  else c.toString

def quote (s : String) : String :=
  "\"" ++ s.foldl (fun text c => text ++ escape c) "" ++ "\""

mutual

/-- Appends the text of a value. -/
def write (text : String) : Json → String
  | null => text ++ "null"
  | bool true => text ++ "true"
  | bool false => text ++ "false"
  | int n => text ++ toString n
  | real digits => text ++ digits
  | str s => text ++ quote s
  | arr [] => text ++ "[]"
  | arr (j :: rest) => writeItems (write (text ++ "[") j) rest ++ "]"
  | obj [] => text ++ "\x7b\x7d"
  | obj ((name, j) :: rest) =>
    writeFields (write (text ++ "\x7b" ++ quote name ++ ":") j) rest ++ "\x7d"

def writeItems (text : String) : List Json → String
  | [] => text
  | j :: rest => writeItems (write (text ++ ",") j) rest

def writeFields (text : String) : List (String × Json) → String
  | [] => text
  | (name, j) :: rest => writeFields (write (text ++ "," ++ quote name ++ ":") j) rest

end

def toText (j : Json) : String :=
  write "" j

end SLanguage.Json
