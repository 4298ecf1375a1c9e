import SLanguage.Json.Basic
import SLanguage.Label
import SLanguage.Variable

/-!
Shapes: how values of the library are written as JSON values and read back. A text
that is not of the right shape is refused as a whole, without a reason. A field of
an object is required, or has a default when it is missing, or may be missing or
`null`; fields that a shape does not know are ignored.
-/

namespace SLanguage

class Shape (α : Type) where
  encode : α → Json
  decode? : Json → Option α

export Shape (encode decode?)

instance : Shape String where
  encode s := .str s
  decode?
    | .str s => some s
    | _ => none

instance : Shape UInt64 where
  encode n := .int n.toNat
  decode?
    | .int n => if 0 ≤ n ∧ n.toNat < UInt64.size then some (UInt64.ofNat n.toNat) else none
    | _ => none

instance : Shape Int64 where
  encode n := .int n.toInt
  decode?
    | .int n =>
      if Int64.minValue.toInt ≤ n ∧ n ≤ Int64.maxValue.toInt then some (Int64.ofInt n) else none
    | _ => none

instance : Shape UInt32 where
  encode n := .int n.toNat
  decode?
    | .int n => if 0 ≤ n ∧ n.toNat < UInt32.size then some (UInt32.ofNat n.toNat) else none
    | _ => none

instance : Shape Variable where
  encode v := .str v.toText
  decode?
    | .str s => Variable.read? s
    | _ => none

instance : Shape Label where
  encode l := .str l.toText
  decode?
    | .str s => Label.read? s
    | _ => none

def decodeAll? {α : Type} [Shape α] : List Json → Option (List α)
  | [] => some []
  | j :: rest => do return (← decode? j) :: (← decodeAll? rest)

instance {α : Type} [Shape α] : Shape (List α) where
  encode l := .arr (l.map encode)
  decode?
    | .arr items => decodeAll? items
    | _ => none

instance {α β : Type} [Shape α] [Shape β] : Shape (α × β) where
  encode p := .arr [encode p.1, encode p.2]
  decode?
    | .arr [a, b] => do return (← decode? a, ← decode? b)
    | _ => none

/-- An optional value is `null` when it is absent. -/
instance {α : Type} [Shape α] : Shape (Option α) where
  encode
    | some a => encode a
    | none => .null
  decode?
    | .null => some none
    | j => (decode? j).map some

instance : Shape Bool where
  encode b := .bool b
  decode?
    | .bool b => some b
    | _ => none

/-- A finite type whose members are written as fixed words, in the case given. -/
class Worded (α : Type) where
  members : List α
  word : α → String

instance {α : Type} [Worded α] : Shape α where
  encode a := .str (Worded.word a)
  decode?
    | .str s => (Worded.members (α := α)).find? fun a => Worded.word a == s
    | _ => none

namespace Json

def required? {α : Type} [Shape α] (fields : List (String × Json)) (name : String) : Option α := do
  decode? (← fields.lookup name)

def defaulted? {α : Type} [Shape α] (fields : List (String × Json)) (name : String)
    (default : α) : Option α :=
  match fields.lookup name with
  | some j => decode? j
  | none => some default

def optional? {α : Type} [Shape α] (fields : List (String × Json)) (name : String) :
    Option (Option α) :=
  defaulted? fields name none

end Json

end SLanguage
