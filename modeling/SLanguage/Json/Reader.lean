import SLanguage.Json.Basic
import SLanguage.Text.Numeral

/-!
Reading JSON text. Every call of `value` consumes a character, so the length of the
text bounds the depth of the recursion and the bound is never what stops it. Of two
fields of one name in an object the later counts.
-/

namespace SLanguage.Json

def skipBlanks (cs : List Char) : List Char :=
  cs.dropWhile fun c => c == ' ' || c == '\n' || c == '\r' || c == '\t'

def hexValue? (c : Char) : Option Nat :=
  if c.isDigit then some (c.toNat - 48)
  else if 'a' ≤ c ∧ c ≤ 'f' then some (c.toNat - 87)
  else if 'A' ≤ c ∧ c ≤ 'F' then some (c.toNat - 55)
  else none

def codeUnit? (a b c d : Char) : Option Nat := do
  return 4096 * (← hexValue? a) + 256 * (← hexValue? b) + 16 * (← hexValue? c) + (← hexValue? d)

def scalar? (n : Nat) : Option Char :=
  if n < 0xD800 ∨ 0xDFFF < n then some (Char.ofNat n) else none

def unescape? (c : Char) : Option Char :=
  match c with
  | '"' => some '"'
  | '\\' => some '\\'
  | '/' => some '/'
  | 'b' => some (Char.ofNat 8)
  | 'f' => some (Char.ofNat 12)
  | 'n' => some '\n'
  | 'r' => some '\r'
  | 't' => some '\t'
  | _ => none

/-- The rest of a string after its opening quote, and what follows the closing one.
The characters read so far are given as a text. -/
def string (read : String) : List Char → Option (String × List Char)
  | '"' :: rest => some (read, rest)
  | '\\' :: 'u' :: a :: b :: c :: d :: rest => do
    let n ← codeUnit? a b c d
    if 0xD800 ≤ n ∧ n < 0xDC00 then
      match rest with
      | '\\' :: 'u' :: a :: b :: c :: d :: rest => do
        let low ← codeUnit? a b c d
        if 0xDC00 ≤ low ∧ low < 0xE000 then
          string (read.push (Char.ofNat (0x10000 + (n - 0xD800) * 0x400 + (low - 0xDC00)))) rest
        else none
      | _ => none
    else string (read.push (← scalar? n)) rest
  | '\\' :: c :: rest => do string (read.push (← unescape? c)) rest
  | c :: rest => string (read.push c) rest
  | [] => none

/-- An integer, or a number that only a real can be. -/
def number (cs : List Char) : Option (Json × List Char) :=
  let inNumber c := c.isDigit || c == '-' || c == '+' || c == '.' || c == 'e' || c == 'E'
  let written := cs.takeWhile inNumber
  let rest := cs.dropWhile inNumber
  match written with
  | [] => none
  | '-' :: digits =>
    match Text.readNumeral? digits with
    | some 0 | none => some (.real (String.ofList written), rest)
    | some n => some (.int (-n), rest)
  | digits =>
    match Text.readNumeral? digits with
    | some n => some (.int n, rest)
    | none => some (.real (String.ofList written), rest)

def setField (fields : List (String × Json)) (name : String) (j : Json) : List (String × Json) :=
  (name, j) :: fields.filter fun field => field.1 != name

mutual

def value : Nat → List Char → Option (Json × List Char)
  | 0, _ => none
  | depth + 1, cs =>
    match skipBlanks cs with
    | 'n' :: 'u' :: 'l' :: 'l' :: rest => some (.null, rest)
    | 't' :: 'r' :: 'u' :: 'e' :: rest => some (.bool true, rest)
    | 'f' :: 'a' :: 'l' :: 's' :: 'e' :: rest => some (.bool false, rest)
    | '"' :: rest => (string "" rest).map fun (s, rest) => (.str s, rest)
    | '[' :: rest =>
      match skipBlanks rest with
      | ']' :: rest => some (.arr [], rest)
      | rest => (items depth rest).map fun (js, rest) => (.arr js, rest)
    | '\x7b' :: rest =>
      match skipBlanks rest with
      | '\x7d' :: rest => some (.obj [], rest)
      | rest => (members depth [] rest).map fun (fields, rest) => (.obj fields, rest)
    | rest => number rest

def items : Nat → List Char → Option (List Json × List Char)
  | 0, _ => none
  | depth + 1, cs => do
    let (j, rest) ← value depth cs
    match skipBlanks rest with
    | ',' :: rest => (items depth rest).map fun (js, rest) => (j :: js, rest)
    | ']' :: rest => return ([j], rest)
    | _ => none

def members : Nat → List (String × Json) → List Char → Option (List (String × Json) × List Char)
  | 0, _, _ => none
  | depth + 1, fields, cs =>
    match skipBlanks cs with
    | '"' :: rest => do
      let (name, rest) ← string "" rest
      match skipBlanks rest with
      | ':' :: rest => do
        let (j, rest) ← value depth rest
        let fields := setField fields name j
        match skipBlanks rest with
        | ',' :: rest => members depth fields rest
        | '\x7d' :: rest => return (fields.reverse, rest)
        | _ => none
      | _ => none
    | _ => none

end

def read? (text : String) : Option Json :=
  let cs := text.toList
  match value (cs.length + 1) cs with
  | some (j, rest) => if skipBlanks rest = [] then some j else none
  | none => none

end SLanguage.Json
