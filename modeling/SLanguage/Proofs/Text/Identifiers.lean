import Mathlib
import SLanguage.Proofs.Outcomes
import SLanguage.Proofs.Text.Spelling

/-! Identifiers. A grammar says which characters denote which variable and which label. These are
read, with blanks around them, as what they denote, and nothing else is read. What is displayed is
read back, so a text that is read and displayed again takes a normal form, and two texts that take
the same one are texts of the same identifier. -/

namespace SLanguage

namespace Text

/-- The letter, small or capital. -/
def InEitherCase (letter c : Char) : Prop :=
  c = letter ∨ c = letter.toUpper

/-- One or more of the digits from 0 to 9, which stand for the number in base ten. -/
def IsNumeral (cs : List Char) (n : Nat) : Prop :=
  ∃ digits : List (Fin 10), digits ≠ [] ∧ cs = digits.map (fun d => Nat.digitChar d.val) ∧
    Nat.ofDigits 10 (digits.reverse.map Fin.val) = n

/-- The text is one of these words, with blanks around it. -/
def IsPadded (words : List Char → Prop) (text : String) : Prop :=
  ∃ front word back : List Char, text.toList = front ++ word ++ back ∧
    (∀ c ∈ front, isBlank c = true) ∧ (∀ c ∈ back, isBlank c = true) ∧ words word

section Letters

variable {letter c : Char} {letters cs : List Char}

theorem toLower_eq_iff (small : letter.toLower = letter) :
    c.toLower = letter ↔ InEitherCase letter c := by
  constructor
  · rintro rfl
    by_cases capital : c.isUpper = true
    · right
      rw [Char.toUpper_toLower_eq_toUpper,
        Char.toUpper_eq_of_not_isLower (Char.not_isLower_of_isUpper capital)]
    · exact .inl (Char.toLower_eq_of_not_isUpper capital).symm
  · rintro (rfl | rfl)
    · exact small
    · rw [Char.toLower_toUpper_eq_toLower, small]

theorem map_toLower_eq_iff (small : letters.map Char.toLower = letters) :
    cs.map Char.toLower = letters ↔ List.Forall₂ InEitherCase letters cs := by
  induction letters generalizing cs with
  | nil => rw [List.map_eq_nil_iff, List.forall₂_nil_left_iff]
  | cons letter letters ih =>
    obtain ⟨own, others⟩ := List.cons.inj small
    cases cs with
    | nil => simp
    | cons c cs =>
      rw [List.map_cons, List.cons_eq_cons, List.forall₂_cons, toLower_eq_iff own, ih others]

theorem InEitherCase.isAlphanum (either : InEitherCase letter c)
    (alphabetic : letter.isAlpha = true) : c.isAlphanum = true := by
  have same : c.isAlpha = letter.isAlpha := by
    obtain rfl | rfl := either
    · rfl
    · exact Char.isAlpha_toUpper_eq_isAlpha letter
  rw [Char.isAlphanum, same, alphabetic, Bool.true_or]

theorem isAlphanum_of_letters (spelled : List.Forall₂ InEitherCase letters cs)
    (alphabetic : ∀ letter ∈ letters, letter.isAlpha = true) : ∀ c ∈ cs, c.isAlphanum = true := by
  induction spelled with
  | nil => exact List.forall_mem_nil _
  | cons either _ ih =>
    obtain ⟨own, others⟩ := List.forall_mem_cons.1 alphabetic
    exact List.forall_mem_cons.2 ⟨either.isAlphanum own, ih others⟩

end Letters

/-! Numerals. -/

theorem digitValue_digitChar (d : Fin 10) : digitValue (Nat.digitChar d.val) = d.val := by
  rw [digitValue, Nat.toNat_digitChar_of_lt_ten d.isLt]
  exact Nat.add_sub_cancel_left ..

theorem exists_digitChar {c : Char} (digit : c.isDigit = true) :
    ∃ d : Fin 10, Nat.digitChar d.val = c := by
  have range : 48 ≤ c.toNat ∧ c.toNat ≤ 57 := Char.isDigit_iff_toNat.1 digit
  have small : c.toNat - 48 < 10 := by omega
  have same : (Nat.digitChar (c.toNat - 48)).toNat = c.toNat := by
    rw [Nat.toNat_digitChar_of_lt_ten small]
    omega
  exact ⟨⟨c.toNat - 48, small⟩, Char.toNat_inj.1 same⟩

theorem isDigit_of_mem_digits {digits : List (Fin 10)} {c : Char}
    (mem : c ∈ digits.map fun d => Nat.digitChar d.val) : c.isDigit = true := by
  obtain ⟨d, -, rfl⟩ := List.mem_map.1 mem
  rw [Nat.isDigit_digitChar, decide_eq_true d.isLt]

theorem numeralValue_digits (digits : List (Fin 10)) :
    numeralValue (digits.map fun d => Nat.digitChar d.val) =
      Nat.ofDigits 10 (digits.reverse.map Fin.val) := by
  induction digits using List.reverseRecOn with
  | nil => rfl
  | append_singleton digits d ih =>
    rw [List.map_append, List.map_singleton, numeralValue_append, ih, digitValue_digitChar,
      List.reverse_append, List.reverse_singleton, List.singleton_append, List.map_cons,
      Nat.ofDigits_cons, Nat.add_comm]

theorem readNumeral?_eq_some_iff {cs : List Char} {n : Nat} :
    readNumeral? cs = some n ↔ IsNumeral cs n := by
  rw [readNumeral?]
  constructor
  · intro read
    split at read
    · rename_i shape
      have inside : cs ∈ Set.range (List.map fun d : Fin 10 => Nat.digitChar d.val) := by
        rw [Set.range_list_map]
        exact fun c mem => exists_digitChar (List.all_eq_true.1 shape.2 c mem)
      obtain ⟨digits, rfl⟩ := inside
      refine ⟨digits, ?_, rfl, ?_⟩
      · exact fun none => shape.1 (none ▸ rfl)
      · rw [← numeralValue_digits]
        exact Option.some.inj read
    · cases read
  · rintro ⟨digits, nonempty, rfl, rfl⟩
    have some_digit : digits.map (fun d => Nat.digitChar d.val) ≠ [] := by simpa using nonempty
    have all_digits : (digits.map fun d => Nat.digitChar d.val).all Char.isDigit = true :=
      List.all_eq_true.2 fun _ => isDigit_of_mem_digits
    rw [if_pos ⟨some_digit, all_digits⟩, numeralValue_digits]

theorem IsNumeral.isAlphanum {cs : List Char} {n : Nat} (numeral : IsNumeral cs n) :
    ∀ c ∈ cs, c.isAlphanum = true := by
  obtain ⟨digits, -, rfl, -⟩ := numeral
  intro c mem
  rw [Char.isAlphanum, isDigit_of_mem_digits mem, Bool.or_true]

theorem IsNumeral.leadingZeros {cs : List Char} {n : Nat} (numeral : IsNumeral cs n) (zeros : Nat) :
    IsNumeral (List.replicate zeros '0' ++ cs) n := by
  obtain ⟨digits, nonempty, rfl, rfl⟩ := numeral
  refine ⟨List.replicate zeros 0 ++ digits, List.append_ne_nil_of_right_ne_nil _ nonempty, ?_, ?_⟩
  · rw [List.map_append, List.map_replicate]
    rfl
  · rw [List.reverse_append, List.reverse_replicate, List.map_append, List.map_replicate]
    exact Nat.ofDigits_append_replicate_zero _

theorem exists_leadingZeros {digits : List (Fin 10)} (nonempty : digits ≠ []) :
    ∃ zeros, digits.map (fun d => Nat.digitChar d.val) = List.replicate zeros '0' ++
      Nat.toDigits 10 (numeralValue (digits.map fun d => Nat.digitChar d.val)) := by
  induction digits using List.reverseRecOn with
  | nil => exact absurd rfl nonempty
  | append_singleton digits d ih =>
    rw [List.map_append, List.map_singleton, numeralValue_append, digitValue_digitChar]
    have last : Nat.toDigits 10 d.val = [Nat.digitChar d.val] := Nat.toDigits_of_lt_base d.isLt
    by_cases first : digits = []
    · subst first
      exact ⟨0, by simp [numeralValue, last]⟩
    · obtain ⟨zeros, front⟩ := ih first
      generalize numeralValue (digits.map fun d => Nat.digitChar d.val) = n at front ⊢
      rw [front, List.append_assoc, ← last]
      obtain rfl | positive := Nat.eq_zero_or_pos n
      -- only zeros so far, and the one that was the numeral of 0 is a leading zero now
      · refine ⟨zeros + 1, ?_⟩
        rw [List.replicate_succ', List.append_assoc, Nat.mul_zero, Nat.zero_add]
        rfl
      · exact ⟨zeros, congrArg _ (Nat.toDigits_append_toDigits (by decide) positive d.isLt)⟩

/-- The numerals of a number are the shortest one and those with zeros in front of it. -/
theorem isNumeral_iff {cs : List Char} {n : Nat} :
    IsNumeral cs n ↔ ∃ zeros, cs = List.replicate zeros '0' ++ Nat.toDigits 10 n := by
  constructor
  · rintro ⟨digits, nonempty, rfl, rfl⟩
    rw [← numeralValue_digits]
    exact exists_leadingZeros nonempty
  · rintro ⟨zeros, rfl⟩
    exact (readNumeral?_eq_some_iff.1 (readNumeral?_toDigits n)).leadingZeros zeros

/-- Blanks at the ends of a text are cut off before it is read. -/
theorem isPadded_iff {words : List Char → Prop} {text : String}
    (solid : ∀ word, words word → ∀ c ∈ word, c.isAlphanum = true) :
    IsPadded words text ↔ words (trim text).toList := by
  rw [toList_trim]
  constructor
  · rintro ⟨front, word, back, parts, blank, blank', own⟩
    rw [parts, trimChars_append word blank blank',
      trimChars_of_forall fun c mem => isBlank_of_isAlphanum (solid word own c mem)]
    exact own
  · intro own
    obtain ⟨front, back, parts, blank, blank'⟩ := exists_trimmed text.toList
    exact ⟨front, _, back, parts, blank, blank', own⟩

end Text

open Text

/-- The words of a grammar, padded with blanks, are read as what they denote, and every other text
is refused, blanks and all. Reading and displaying again brings a text to its normal form. -/
structure Identifies {α : Type} (parse : String → Except Refusal α) (toText : α → String)
    (refusal : String → Refusal) (Denotes : List Char → α → Prop) : Prop where
  accepted : ∀ text v, parse text = .ok v ↔ IsPadded (Denotes · v) text
  refused : ∀ text e, parse text = .error e ↔
    e = refusal text ∧ ∀ v, ¬ IsPadded (Denotes · v) text
  displayed : ∀ v, parse (toText v) = .ok v
  idempotent : ∀ text form, toText <$> parse text = .ok form → toText <$> parse form = .ok form
  alike : ∀ text text', (∃ v, parse text = .ok v ∧ parse text' = .ok v) ↔
    ∃ form, toText <$> parse text = .ok form ∧ toText <$> parse text' = .ok form

/-- A reader of trimmed characters that reads what they denote. -/
theorem Identifies.of_reader {α : Type} {parse : String → Except Refusal α} {toText : α → String}
    {refusal : String → Refusal} {Denotes : List Char → α → Prop} {read? : List Char → Option α}
    (parses : ∀ text, parse text = (read? (trim text).toList).elim (.error (refusal text)) .ok)
    (reads : ∀ cs v, read? cs = some v ↔ Denotes cs v)
    (solid : ∀ cs v, Denotes cs v → ∀ c ∈ cs, c.isAlphanum = true)
    (displayed : ∀ v, parse (toText v) = .ok v) :
    Identifies parse toText refusal Denotes := by
  have accepted (text : String) (v : α) : parse text = .ok v ↔ IsPadded (Denotes · v) text := by
    rw [isPadded_iff fun cs => solid cs v, ← reads, parses]
    cases read? (trim text).toList <;> simp
  refine ⟨accepted, fun text e => ?_, displayed, fun text form normal => ?_, fun text text' => ?_⟩
  · simp only [← accepted]
    rw [parses]
    cases read? (trim text).toList <;> simp [eq_comm]
  · obtain ⟨v, -, rfl⟩ := map_eq_ok.1 normal
    exact map_eq_ok.2 ⟨v, displayed v, rfl⟩
  · constructor
    · rintro ⟨v, read, read'⟩
      exact ⟨toText v, map_eq_ok.2 ⟨v, read, rfl⟩, map_eq_ok.2 ⟨v, read', rfl⟩⟩
    · rintro ⟨form, normal, normal'⟩
      obtain ⟨v, read, rfl⟩ := map_eq_ok.1 normal
      obtain ⟨v', read', same⟩ := map_eq_ok.1 normal'
      have back : parse (toText v) = .ok v' := same ▸ displayed v'
      rw [displayed] at back
      exact ⟨v, read, back ▸ read'⟩

theorem Serial.read?_eq_some_iff {cs : List Char} {s : Serial} :
    read? cs = some s ↔ IsNumeral cs s.val := by
  simp only [read?, Option.bind_eq_some_iff, readNumeral?_eq_some_iff, ofNat?_eq_some_iff]
  constructor
  · rintro ⟨n, numeral, rfl⟩
    exact numeral
  · exact fun numeral => ⟨_, numeral, rfl⟩

namespace Variable

/-- The letter of the kind in either case. The number of an input or a work variable follows, from 1
to 2^32 - 1 as all serials are. -/
inductive Denotes : List Char → Variable → Prop where
  | result {c : Char} (letter : InEitherCase 'y' c) : Denotes [c] .result
  | input {c : Char} {digits : List Char} {n : Serial} (letter : InEitherCase 'x' c)
      (numeral : IsNumeral digits n.val) : Denotes (c :: digits) (.input n)
  | work {c : Char} {digits : List Char} {n : Serial} (letter : InEitherCase 'z' c)
      (numeral : IsNumeral digits n.val) : Denotes (c :: digits) (.work n)

theorem readChars?_eq_some_iff {cs : List Char} {v : Variable} :
    readChars? cs = some v ↔ Denotes cs v := by
  constructor
  · intro read
    cases cs with
    | nil => cases read
    | cons c digits =>
      rw [readChars?] at read
      split at read
      · rename_i letter
        split at read
        · rename_i none
          cases read
          exact none ▸ .result ((toLower_eq_iff (by decide)).1 letter)
        · cases read
      · rename_i letter
        obtain ⟨n, number, rfl⟩ := Option.map_eq_some_iff.1 read
        exact .input ((toLower_eq_iff (by decide)).1 letter) (Serial.read?_eq_some_iff.1 number)
      · rename_i letter
        obtain ⟨n, number, rfl⟩ := Option.map_eq_some_iff.1 read
        exact .work ((toLower_eq_iff (by decide)).1 letter) (Serial.read?_eq_some_iff.1 number)
      · cases read
  · intro denotes
    cases denotes with
    | result letter => simp only [readChars?, (toLower_eq_iff (by decide)).2 letter, if_pos]
    | input letter numeral =>
      simp only [readChars?, (toLower_eq_iff (by decide)).2 letter,
        Serial.read?_eq_some_iff.2 numeral, Option.map_some]
    | work letter numeral =>
      simp only [readChars?, (toLower_eq_iff (by decide)).2 letter,
        Serial.read?_eq_some_iff.2 numeral, Option.map_some]

/-- A letter and digits. -/
theorem Denotes.isAlphanum {cs : List Char} {v : Variable} (denotes : Denotes cs v) :
    ∀ c ∈ cs, c.isAlphanum = true := by
  cases denotes with
  | result letter => exact List.forall_mem_singleton.2 (letter.isAlphanum (by decide))
  | input letter numeral =>
    exact List.forall_mem_cons.2 ⟨letter.isAlphanum (by decide), numeral.isAlphanum⟩
  | work letter numeral =>
    exact List.forall_mem_cons.2 ⟨letter.isAlphanum (by decide), numeral.isAlphanum⟩

end Variable

namespace Label

/-- No characters, the word EXIT in letters of any case, or the letter L in either case and a serial
number. -/
inductive Denotes : List Char → Label → Prop where
  | empty : Denotes [] .empty
  | exit {word : List Char} (letters : List.Forall₂ InEitherCase ['e', 'x', 'i', 't'] word) :
    Denotes word .exit
  | numbered {c : Char} {digits : List Char} {n : Serial} (letter : InEitherCase 'l' c)
      (numeral : IsNumeral digits n.val) : Denotes (c :: digits) (.numbered n)

theorem readChars?_eq_some_iff {cs : List Char} {l : Label} :
    readChars? cs = some l ↔ Denotes cs l := by
  constructor
  · intro read
    unfold readChars? at read
    split at read
    · rename_i none
      cases read
      exact none ▸ .empty
    · split at read
      · rename_i word
        cases read
        exact .exit ((map_toLower_eq_iff (by decide)).1 word)
      · split at read
        · split at read
          · rename_i letter
            obtain ⟨n, number, rfl⟩ := Option.map_eq_some_iff.1 read
            exact .numbered ((toLower_eq_iff (by decide)).1 letter)
              (Serial.read?_eq_some_iff.1 number)
          · cases read
        · cases read
  · intro denotes
    cases denotes with
    | empty => rfl
    | exit letters =>
      have word := (map_toLower_eq_iff (by decide)).2 letters
      cases letters
      rw [readChars?, if_neg (List.cons_ne_nil _ _), if_pos word]
    | numbered letter numeral =>
      have small := (toLower_eq_iff (by decide)).2 letter
      rw [readChars?, if_neg (List.cons_ne_nil _ _), if_neg]
      · simp only [small, if_pos, Serial.read?_eq_some_iff.2 numeral, Option.map_some]
      · rw [List.map_cons, small]
        exact fun word => absurd (List.cons.inj word).1 (by decide)

theorem Denotes.isAlphanum {cs : List Char} {l : Label} (denotes : Denotes cs l) :
    ∀ c ∈ cs, c.isAlphanum = true := by
  cases denotes with
  | empty => exact List.forall_mem_nil _
  | exit letters => exact isAlphanum_of_letters letters (List.all_eq_true.1 (by decide))
  | numbered letter numeral =>
    exact List.forall_mem_cons.2 ⟨letter.isAlphanum (by decide), numeral.isAlphanum⟩

end Label

/-- Variables and labels are read by their grammars, in which a number may have zeros in front. -/
theorem identifiers_read_by_grammar :
    Identifies Variable.parse Variable.toText .invalidVariable Variable.Denotes ∧
    Identifies Label.parse Label.toText .invalidLabel Label.Denotes ∧
    ∀ digits n, IsNumeral digits n ↔
      ∃ zeros, digits = List.replicate zeros '0' ++ Nat.toDigits 10 n := by
  refine ⟨.of_reader (fun text => ?_) (fun _ _ => Variable.readChars?_eq_some_iff)
      (fun _ _ => Variable.Denotes.isAlphanum) Variable.parse_toText,
    .of_reader (fun text => ?_) (fun _ _ => Label.readChars?_eq_some_iff)
      (fun _ _ => Label.Denotes.isAlphanum) Label.parse_toText,
    fun _ _ => isNumeral_iff⟩
  · rw [Variable.parse, Variable.read?]
    cases Variable.readChars? (trim text).toList <;> rfl
  · rw [Label.parse, Label.read?]
    cases Label.readChars? (trim text).toList <;> rfl

example : Variable.parse "\u3000X007\t" = .ok (.input { val := 7 }) := by decide +kernel

end SLanguage
