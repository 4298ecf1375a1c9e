import Mathlib.Data.List.DropRight
import SLanguage.Instruction.Record

/-! Names as text. Trimming once is enough, and the text of a number, a variable, a label or a
constant is read as what it was written for. -/

namespace SLanguage

namespace Text

theorem isBlank_of_isAlphanum {c : Char} (h : c.isAlphanum = true) : isBlank c = false := by
  have range : ((65 ≤ c.toNat ∧ c.toNat ≤ 90) ∨ (97 ≤ c.toNat ∧ c.toNat ≤ 122)) ∨
      (48 ≤ c.toNat ∧ c.toNat ≤ 57) := by
    obtain letter | digit := Bool.or_eq_true_iff.1 h
    · refine .inl ((Bool.or_eq_true_iff.1 letter).imp (fun upper => ?_) fun lower => ?_)
      · have inside : 'A'.val ≤ c.val ∧ c.val ≤ 'Z'.val := of_decide_eq_true upper
        exact inside
      · obtain ⟨lowest, highest⟩ := Bool.and_eq_true_iff.1 lower
        exact ⟨of_decide_eq_true lowest, of_decide_eq_true highest⟩
    · exact .inr (Char.isDigit_iff_toNat.1 digit)
  simp only [isBlank, Bool.or_eq_false_iff, Bool.and_eq_false_iff, decide_eq_false_iff_not,
    beq_eq_false_iff_ne]
  omega

theorem trimChars_of_forall {cs : List Char} (solid : ∀ c ∈ cs, isBlank c = false) :
    trimChars cs = cs := by
  have kept {cs : List Char} (solid : ∀ c ∈ cs, isBlank c = false) : cs.dropWhile isBlank = cs :=
    List.dropWhile_eq_self_iff.2 fun lt => by simp [solid _ (List.getElem_mem lt)]
  rw [trimChars, kept solid, kept fun c mem => solid c (List.mem_reverse.1 mem),
    List.reverse_reverse]

theorem trimChars_trimChars (cs : List Char) : trimChars (trimChars cs) = trimChars cs := by
  have front : (trimChars cs).dropWhile isBlank = trimChars cs := by
    refine List.dropWhile_eq_self_iff.2 fun lt blank => ?_
    obtain ⟨rest, eq⟩ : trimChars cs <+: cs.dropWhile isBlank := List.rdropWhile_prefix ..
    have first := List.head?_dropWhile_not isBlank cs
    have at_zero : (cs.dropWhile isBlank).head? = some (trimChars cs)[0] := by
      rw [← eq, List.head?_eq_getElem?, List.getElem?_append_left lt]
      exact List.getElem?_eq_getElem lt
    rw [at_zero] at first
    exact Bool.false_ne_true (first.symm.trans blank)
  have back : (trimChars cs).rdropWhile isBlank = trimChars cs := List.rdropWhile_idempotent ..
  change ((trimChars cs).dropWhile isBlank).rdropWhile isBlank = trimChars cs
  rw [front, back]

theorem mem_of_mem_trimChars {c : Char} {cs : List Char} (mem : c ∈ trimChars cs) : c ∈ cs :=
  (List.dropWhile_suffix isBlank).subset ((List.rdropWhile_prefix isBlank _).subset mem)

@[simp] theorem trim_trim (s : String) : trim (trim s) = trim s := by
  rw [trim, toList_trim, trimChars_trimChars, trim]

theorem trim_of_isAlphanum {s : String} (h : ∀ c ∈ s.toList, c.isAlphanum = true) :
    trim s = s := by
  rw [trim, trimChars_of_forall fun c mem => isBlank_of_isAlphanum (h c mem), String.ofList_toList]

theorem isDigit_of_mem_toDigits {n : Nat} {c : Char} (mem : c ∈ Nat.toDigits 10 n) :
    c.isDigit = true :=
  Nat.isDigit_of_mem_toDigits (by decide) (by decide) mem

theorem isAlphanum_of_mem_toDigits {n : Nat} {c : Char} (mem : c ∈ Nat.toDigits 10 n) :
    c.isAlphanum = true := by
  rw [Char.isAlphanum, isDigit_of_mem_toDigits mem, Bool.or_true]

theorem readNumeral?_toDigits (n : Nat) : readNumeral? (Nat.toDigits 10 n) = some n := by
  have digits : (Nat.toDigits 10 n).all Char.isDigit = true :=
    List.all_eq_true.2 fun c mem => isDigit_of_mem_toDigits mem
  have value : numeralValue (Nat.toDigits 10 n) = n :=
    Nat.ofDigitChars_toDigits (by decide) (by decide)
  rw [readNumeral?, if_pos ⟨Nat.toDigits_ne_nil, digits⟩, value]

end Text

theorem Serial.read?_toDigits (s : Serial) : read? (Nat.toDigits 10 s.val) = some s := by
  rw [read?, Text.readNumeral?_toDigits, Option.bind_some, ofNat?_val]

namespace Variable

theorem toList_toText_input (n : Serial) :
    (input n).toText.toList = 'x' :: Nat.toDigits 10 n.val := by
  rw [show (input n).toText = "x" ++ Nat.repr n.val from rfl, String.toList_append,
    Nat.toList_repr]
  rfl

theorem toList_toText_work (n : Serial) :
    (work n).toText.toList = 'z' :: Nat.toDigits 10 n.val := by
  rw [show (work n).toText = "z" ++ Nat.repr n.val from rfl, String.toList_append,
    Nat.toList_repr]
  rfl

/-- A letter and digits. -/
theorem isAlphanum_toText (v : Variable) : ∀ c ∈ v.toText.toList, c.isAlphanum = true := by
  cases v with
  | result =>
    rw [show result.toText.toList = ['y'] from rfl]
    exact List.forall_mem_singleton.2 (by decide)
  | input n =>
    rw [toList_toText_input]
    exact List.forall_mem_cons.2 ⟨by decide, fun _ => Text.isAlphanum_of_mem_toDigits⟩
  | work n =>
    rw [toList_toText_work]
    exact List.forall_mem_cons.2 ⟨by decide, fun _ => Text.isAlphanum_of_mem_toDigits⟩

theorem read?_toText (v : Variable) : read? v.toText = some v := by
  rw [read?, Text.trim_of_isAlphanum v.isAlphanum_toText]
  cases v with
  | result => rfl
  | input n =>
    rw [toList_toText_input]
    change (Serial.read? _).map input = _
    rw [Serial.read?_toDigits]
    rfl
  | work n =>
    rw [toList_toText_work]
    change (Serial.read? _).map work = _
    rw [Serial.read?_toDigits]
    rfl

theorem parse_toText (v : Variable) : parse v.toText = .ok v := by
  rw [parse, read?_toText]

end Variable

namespace Label

theorem toList_toText_numbered (n : Serial) :
    (numbered n).toText.toList = 'L' :: Nat.toDigits 10 n.val := by
  rw [show (numbered n).toText = "L" ++ Nat.repr n.val from rfl, String.toList_append,
    Nat.toList_repr]
  rfl

theorem read?_toText (l : Label) : read? l.toText = some l := by
  cases l with
  | empty => rfl
  | exit => rfl
  | numbered n =>
    have solid : ∀ c ∈ (numbered n).toText.toList, c.isAlphanum = true := by
      rw [toList_toText_numbered]
      exact List.forall_mem_cons.2 ⟨by decide, fun _ => Text.isAlphanum_of_mem_toDigits⟩
    have other (digits : List Char) : ('L' :: digits).map Char.toLower ≠ ['e', 'x', 'i', 't'] :=
      fun eq => absurd (List.cons.inj eq).1 (by decide)
    have read : readChars? (numbered n).toText.toList = some (numbered n) := by
      rw [toList_toText_numbered, readChars?, if_neg (List.cons_ne_nil _ _), if_neg (other _)]
      change (Serial.read? _).map numbered = _
      rw [Serial.read?_toDigits]
      rfl
    rw [read?, Text.trim_of_isAlphanum solid, read]

theorem parse_toText (l : Label) : parse l.toText = .ok l := by
  rw [parse, read?_toText]

end Label

end SLanguage
