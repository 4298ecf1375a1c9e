import SLanguage.Serial
import SLanguage.Text.Fold
import Std.Data.TreeMap

/-!
Labels. An instruction without a label carries `empty`, and a jump to `empty` falls
through to the next instruction; `exit` ends the program. Numbered labels stand
between the two in listings.
-/

namespace SLanguage

inductive Label where
  | empty
  | numbered (serial : Serial)
  | exit
deriving DecidableEq, Repr

namespace Label

instance : Inhabited Label := ⟨empty⟩

def isEmpty : Label → Bool
  | empty => true
  | _ => false

def number? : Label → Option Serial
  | numbered n => some n
  | _ => none

def rank : Label → Nat
  | empty => 0
  | numbered n => n.val
  | exit => Serial.last + 1

theorem rank_injective {a b : Label} (h : a.rank = b.rank) : a = b := by
  cases a <;> cases b <;> simp only [rank, Serial.last] at h
  case empty.empty => rfl
  case exit.exit => rfl
  case numbered.numbered n m => exact congrArg numbered (Serial.ext h)
  case empty.numbered n => have := n.val_pos; omega
  case empty.exit => omega
  case numbered.empty n => have := n.val_pos; omega
  case numbered.exit n => have := n.val_le; omega
  case exit.empty => omega
  case exit.numbered n => have := n.val_le; omega

instance : Ord Label := ⟨compareOn rank⟩

instance : Std.TransOrd Label := inferInstanceAs (Std.TransCmp (compareOn rank))

instance : Std.LawfulEqOrd Label where
  eq_of_compare h := rank_injective (Std.LawfulEqOrd.eq_of_compare (α := Nat) h)

def toText : Label → String
  | empty => ""
  | numbered n => s!"L{n}"
  | exit => "EXIT"

instance : ToString Label := ⟨toText⟩

def readChars? (cs : List Char) : Option Label :=
  if cs = [] then some empty
  else if cs.map Char.toLower = ['e', 'x', 'i', 't'] then some exit
  else match cs with
    | c :: digits => if c.toLower = 'l' then (Serial.read? digits).map numbered else none
    | [] => none

def read? (text : String) : Option Label :=
  readChars? (Text.trim text).toList

end Label

end SLanguage
