import SLanguage.Serial
import SLanguage.Text.Blank
import Std.Data.TreeMap

/-!
Variables of the S language: the result `y`, the inputs `x1, x2, …` and the work
variables `z1, z2, …`. Listings go by kind and then by serial, which is the order
of `rank`. Reading ignores case and surrounding blanks.
-/

namespace SLanguage

inductive VariableClass where
  | result
  | input
  | work
deriving DecidableEq, Repr

def VariableClass.letter : VariableClass → Char
  | .result => 'y'
  | .input => 'x'
  | .work => 'z'

inductive Variable where
  | result
  | input (serial : Serial)
  | work (serial : Serial)
deriving DecidableEq, Repr

namespace Variable

def kind : Variable → VariableClass
  | result => .result
  | input _ => .input
  | work _ => .work

/-- The number after the letter; the result has none and counts as 0. -/
def serial : Variable → Nat
  | result => 0
  | input n => n.val
  | work n => n.val

def isInput : Variable → Bool
  | input _ => true
  | _ => false

def isWork : Variable → Bool
  | work _ => true
  | _ => false

/-- The place of a variable in the listing order of all variables. -/
def rank : Variable → Nat
  | result => 0
  | input n => n.val
  | work n => Serial.last + n.val

theorem rank_injective {v w : Variable} (h : v.rank = w.rank) : v = w := by
  cases v <;> cases w <;> simp only [rank, Serial.last] at h
  case result.result => rfl
  case input.input n m => exact congrArg input (Serial.ext h)
  case work.work n m => exact congrArg work (Serial.ext (by omega))
  case result.input n => have := n.val_pos; omega
  case result.work n => have := n.val_pos; omega
  case input.result n => have := n.val_pos; omega
  case work.result n => have := n.val_pos; omega
  case input.work n m => have := n.val_le; have := m.val_pos; omega
  case work.input n m => have := n.val_pos; have := m.val_le; omega

instance : Ord Variable := ⟨compareOn rank⟩

instance : Std.TransOrd Variable := inferInstanceAs (Std.TransCmp (compareOn rank))

instance : Std.LawfulEqOrd Variable where
  eq_of_compare h := rank_injective (Std.LawfulEqOrd.eq_of_compare (α := Nat) h)

def toText : Variable → String
  | result => "y"
  | input n => s!"x{n}"
  | work n => s!"z{n}"

instance : ToString Variable := ⟨toText⟩

/-- The input variables `x1, x2, …` in order, as many as are asked for. -/
def firstInputs (n : Nat) : List Variable :=
  (List.range n).filterMap fun k => (Serial.ofNat? (k + 1)).map input

def readChars? : List Char → Option Variable
  | [] => none
  | c :: digits =>
    match c.toLower with
    | 'y' => if digits = [] then some result else none
    | 'x' => (Serial.read? digits).map input
    | 'z' => (Serial.read? digits).map work
    | _ => none

def read? (text : String) : Option Variable :=
  readChars? (Text.trim text).toList

end Variable

end SLanguage
