import Mathlib.Data.List.Nodup
import SLanguage.Json.Reader
import SLanguage.Json.Writer
import SLanguage.Proofs.Text.Names

/-! JSON values as text. Every value in which no object gives a name twice is read back from
its text, whatever its texts hold and however large its integers are, and reading gives no
other values. The text is told as one list of characters, `spelling`, so that the reader can
be followed along it. -/

namespace SLanguage.Json

/-- Whether a character may stand in a number. -/
def inNumber (c : Char) : Bool :=
  c.isDigit || c == '-' || c == '+' || c == '.' || c == 'e' || c == 'E'

/-- Whether a character may stand between values. -/
def isSpace (c : Char) : Bool :=
  c == ' ' || c == '\n' || c == '\r' || c == '\t'

mutual

/-- What reading can give: no object gives a name twice, and what is not an integer is not
written like one. -/
def Readable : Json → Prop
  | real text => number text.toList = some (.real text, [])
  | arr items => ReadableItems items
  | obj fields => (fields.map Prod.fst).Nodup ∧ ReadableFields fields
  | _ => True

def ReadableItems : List Json → Prop
  | [] => True
  | j :: rest => Readable j ∧ ReadableItems rest

def ReadableFields : List (String × Json) → Prop
  | [] => True
  | (_, j) :: rest => Readable j ∧ ReadableFields rest

end

/-- The characters that stand for a character in a string. -/
def escaped (c : Char) : List Char :=
  (escape c).toList

def quoted (cs : List Char) : List Char :=
  '"' :: cs.flatMap escaped ++ ['"']

mutual

/-- The characters of a value. -/
def spelling : Json → List Char
  | null => ['n', 'u', 'l', 'l']
  | bool true => ['t', 'r', 'u', 'e']
  | bool false => ['f', 'a', 'l', 's', 'e']
  | int n => (toString n).toList
  | real digits => digits.toList
  | str s => quoted s.toList
  | arr [] => ['[', ']']
  | arr (j :: rest) => '[' :: (spelling j ++ spellingItems rest)
  | obj [] => ['\x7b', '\x7d']
  | obj ((name, j) :: rest) =>
    '\x7b' :: (quoted name.toList ++ ':' :: (spelling j ++ spellingFields rest))

def spellingItems : List Json → List Char
  | [] => [']']
  | j :: rest => ',' :: (spelling j ++ spellingItems rest)

def spellingFields : List (String × Json) → List Char
  | [] => ['\x7d']
  | (name, j) :: rest =>
    ',' :: (quoted name.toList ++ ':' :: (spelling j ++ spellingFields rest))

end

theorem toList_quote (s : String) : (quote s).toList = quoted s.toList := by
  have folded (text : String) (cs : List Char) :
      (cs.foldl (fun text c => text ++ escape c) text).toList =
        text.toList ++ cs.flatMap escaped := by
    induction cs generalizing text with
    | nil => simp
    | cons c cs ih => simp [ih, escaped]
  rw [quote, String.foldl_eq_foldl_toList]
  simp [folded, quoted]

mutual

theorem toList_write (text : String) : ∀ j, (write text j).toList = text.toList ++ spelling j
  | null | bool true | bool false | int _ | real _ | arr [] | obj [] => by simp [write, spelling]
  | str s => by simp [write, spelling, toList_quote]
  | arr (j :: rest) => by
    simp [write, spelling, toList_writeItems _ rest, toList_write _ j]
  | obj ((name, j) :: rest) => by
    simp [write, spelling, toList_writeFields _ rest, toList_write _ j, toList_quote]

theorem toList_writeItems (text : String) : ∀ js,
    (writeItems text js).toList ++ [']'] = text.toList ++ spellingItems js
  | [] => by simp [writeItems, spellingItems]
  | j :: rest => by
    simp [writeItems, spellingItems, toList_writeItems _ rest, toList_write _ j]

theorem toList_writeFields (text : String) : ∀ fields,
    (writeFields text fields).toList ++ ['\x7d'] = text.toList ++ spellingFields fields
  | [] => by simp [writeFields, spellingFields]
  | (name, j) :: rest => by
    simp [writeFields, spellingFields, toList_writeFields _ rest, toList_write _ j, toList_quote]

end

theorem toList_toText (j : Json) : j.toText.toList = spelling j := by
  rw [toText, toList_write]
  rfl


theorem hexValue?_hexDigit : ∀ n < 16, hexValue? (hexDigit n) = some n := by decide

theorem codeUnit?_hexDigits {n : Nat} (lt : n < 65536) :
    codeUnit? (hexDigit (n / 4096 % 16)) (hexDigit (n / 256 % 16)) (hexDigit (n / 16 % 16))
      (hexDigit (n % 16)) = some n := by
  have digit (m : Nat) : hexValue? (hexDigit (m % 16)) = some (m % 16) :=
    hexValue?_hexDigit _ (Nat.mod_lt _ (by decide))
  simp only [codeUnit?, digit, Option.bind_eq_bind, Option.bind_some]
  refine congrArg some ?_
  omega

/-- A character that is escaped is read as itself. -/
theorem string_escaped (read : String) (c : Char) (rest : List Char) :
    string read (escaped c ++ rest) = string (read.push c) rest := by
  unfold escaped escape
  dsimp only
  split
  · rename_i eq
    subst eq
    simp [string, unescape?]
  · rename_i not_quote
    split
    · rename_i eq
      subst eq
      simp [string, unescape?]
    · rename_i not_backslash
      split
      · rename_i control
        have low : c.toNat < 0xD800 := by omega
        have unit := codeUnit?_hexDigits (n := c.toNat) (by omega)
        simp only [String.toList_append, String.toList_ofList]
        change string read ('\\' :: 'u' :: _ :: _ :: _ :: _ :: rest) = _
        rw [string]
        simp only [unit, Option.bind_eq_bind, Option.bind_some]
        rw [if_neg (by omega)]
        simp [scalar?, low, Char.ofNat_toNat]
      · rw [show c.toString.toList = [c] by simp [Char.toString]]
        simp only [List.cons_append, List.nil_append]
        rw [string.eq_def]
        split <;> simp_all

theorem string_quoted (read : String) (cs rest : List Char) :
    string read (cs.flatMap escaped ++ '"' :: rest) = some (read ++ String.ofList cs, rest) := by
  induction cs generalizing read with
  | nil => simp [string]
  | cons c cs ih =>
    rw [List.flatMap_cons, List.append_assoc, string_escaped, ih]
    refine congrArg (fun s => some (s, rest)) (String.toList_inj.1 ?_)
    simp

/-- What follows a number. -/
def AtEnd (rest : List Char) : Prop :=
  ∀ c cs, rest = c :: cs → inNumber c = false

theorem number_eq (cs : List Char) :
    number cs = match cs.takeWhile inNumber with
      | [] => none
      | '-' :: digits =>
        match Text.readNumeral? digits with
        | some 0 | none =>
          some (.real (String.ofList (cs.takeWhile inNumber)), cs.dropWhile inNumber)
        | some n => some (.int (-n), cs.dropWhile inNumber)
      | digits =>
        match Text.readNumeral? digits with
        | some n => some (.int n, cs.dropWhile inNumber)
        | none => some (.real (String.ofList (cs.takeWhile inNumber)), cs.dropWhile inNumber) :=
  rfl

theorem rest_of_number {cs rest : List Char} {j : Json} (h : number cs = some (j, rest)) :
    rest = cs.dropWhile inNumber := by
  rw [number_eq] at h
  split at h
  · cases h
  · split at h <;> cases h <;> rfl
  · split at h <;> cases h <;> rfl

theorem number_append {cs rest : List Char} {j : Json} (h : number cs = some (j, []))
    (ends : AtEnd rest) : number (cs ++ rest) = some (j, rest) := by
  have all : ∀ c ∈ cs, inNumber c = true := List.dropWhile_eq_nil_iff.1 (rest_of_number h).symm
  have taken : cs.takeWhile inNumber = cs := List.takeWhile_eq_self_iff.2 all
  have stop : rest.takeWhile inNumber = [] ∧ rest.dropWhile inNumber = rest := by
    cases rest with
    | nil => exact ⟨rfl, rfl⟩
    | cons c cs => simp [ends c cs rfl]
  have left : cs.dropWhile inNumber = [] := (rest_of_number h).symm
  rw [number_eq] at h ⊢
  rw [List.takeWhile_append_of_pos all, List.dropWhile_append_of_pos all, stop.1, stop.2,
    List.append_nil]
  rw [taken, left] at h
  split at h
  · cases h
  · split at h <;> cases h <;> simp_all
  · split at h <;> cases h <;> simp_all

theorem inNumber_of_isDigit {c : Char} (digit : c.isDigit = true) : inNumber c = true := by
  simp [inNumber, digit]

theorem number_nat (n : Nat) : number (Nat.toDigits 10 n) = some (.int n, []) := by
  have all : ∀ c ∈ Nat.toDigits 10 n, inNumber c = true := fun c mem =>
    inNumber_of_isDigit (Text.isDigit_of_mem_toDigits mem)
  have unsigned (rest : List Char) : Nat.toDigits 10 n ≠ '-' :: rest := fun eq =>
    absurd (Text.isDigit_of_mem_toDigits (eq ▸ List.mem_cons_self ..)) (by decide)
  rw [number_eq, List.takeWhile_eq_self_iff.2 all, List.dropWhile_eq_nil_iff.2 all]
  split
  · rename_i empty
    exact absurd empty Nat.toDigits_ne_nil
  · rename_i signed
    exact absurd signed (unsigned _)
  · rw [Text.readNumeral?_toDigits]

theorem number_toString (n : Int) : number (toString n).toList = some (.int n, []) := by
  cases n with
  | ofNat n =>
    rw [show (toString (Int.ofNat n)).toList = Nat.toDigits 10 n from Nat.toList_repr]
    exact number_nat n
  | negSucc n =>
    have digits : (toString (Int.negSucc n)).toList = '-' :: Nat.toDigits 10 (n + 1) := by
      rw [show toString (Int.negSucc n) = "-" ++ Nat.repr (n + 1) from rfl, String.toList_append,
        Nat.toList_repr]
      rfl
    have all : ∀ c ∈ '-' :: Nat.toDigits 10 (n + 1), inNumber c = true :=
      List.forall_mem_cons.2 ⟨rfl, fun c mem =>
        inNumber_of_isDigit (Text.isDigit_of_mem_toDigits mem)⟩
    rw [digits, number_eq, List.takeWhile_eq_self_iff.2 all, List.dropWhile_eq_nil_iff.2 all]
    simp only [Text.readNumeral?_toDigits]
    rfl

theorem exists_number {cs rest : List Char} {j : Json} (h : number cs = some (j, rest)) :
    ∃ c cs', cs = c :: cs' ∧ inNumber c = true := by
  rw [number_eq] at h
  cases cs with
  | nil => cases h
  | cons c cs =>
    refine ⟨c, cs, rfl, ?_⟩
    by_contra other
    rw [List.takeWhile_cons_of_neg other] at h
    cases h

theorem skipBlanks_cons {c : Char} (solid : isSpace c = false) (cs : List Char) :
    skipBlanks (c :: cs) = c :: cs :=
  List.dropWhile_cons_of_neg (Bool.not_eq_true _ ▸ solid)

theorem isSpace_of_inNumber {c : Char} (number : inNumber c = true) : isSpace c = false := by
  by_contra space
  simp only [isSpace, Bool.not_eq_false, Bool.or_eq_true, beq_iff_eq] at space
  obtain ((rfl | rfl) | rfl) | rfl := space <;> cases number

/-- A value begins with a character that is neither blank nor the end of an array. -/
theorem exists_head {j : Json} (readable : j.Readable) :
    ∃ c cs, spelling j = c :: cs ∧ isSpace c = false ∧ c ≠ ']' := by
  have ofNumber {cs rest : List Char} {j : Json} (h : number cs = some (j, rest)) :
      ∃ c cs', cs = c :: cs' ∧ isSpace c = false ∧ c ≠ ']' := by
    obtain ⟨c, cs', rfl, digit⟩ := exists_number h
    refine ⟨c, cs', rfl, isSpace_of_inNumber digit, ?_⟩
    rintro rfl
    cases digit
  cases j with
  | int n => exact ofNumber (number_toString n)
  | real text => exact ofNumber readable
  | bool b => cases b <;> exact ⟨_, _, rfl, rfl, by decide⟩
  | arr items => cases items <;> exact ⟨_, _, rfl, rfl, by decide⟩
  | obj fields =>
    rcases fields with _ | ⟨⟨name, j⟩, rest⟩ <;> exact ⟨_, _, rfl, rfl, by decide⟩
  | _ => exact ⟨_, _, rfl, rfl, by decide⟩

theorem value_number (depth : Nat) {cs rest : List Char} {j : Json}
    (h : number cs = some (j, rest)) : value (depth + 1) cs = some (j, rest) := by
  obtain ⟨c, cs, rfl, digit⟩ := exists_number h
  have other : c ≠ 'n' ∧ c ≠ 't' ∧ c ≠ 'f' ∧ c ≠ '"' ∧ c ≠ '[' ∧ c ≠ '\x7b' := by
    refine ⟨?_, ?_, ?_, ?_, ?_, ?_⟩ <;> (rintro rfl; cases digit)
  rw [value, skipBlanks_cons (isSpace_of_inNumber digit)]
  split <;> simp_all

theorem atEnd_items (js : List Json) (rest : List Char) : AtEnd (spellingItems js ++ rest) := by
  cases js <;> (rintro c cs ⟨⟩; rfl)

theorem atEnd_fields (fields : List (String × Json)) (rest : List Char) :
    AtEnd (spellingFields fields ++ rest) := by
  rcases fields with _ | ⟨⟨name, j⟩, fields⟩ <;> (rintro c cs ⟨⟩; rfl)

theorem setField_of_not_mem {fields : List (String × Json)} {name : String}
    (fresh : name ∉ fields.map Prod.fst) (j : Json) :
    setField fields name j = (name, j) :: fields := by
  refine congrArg _ (List.filter_eq_self.2 fun field mem => bne_iff_ne.2 ?_)
  rintro rfl
  exact fresh (List.mem_map_of_mem mem)

theorem length_spellingItems_pos (js : List Json) : 0 < (spellingItems js).length := by
  cases js <;> exact Nat.succ_pos _

theorem length_spellingFields_pos (fields : List (String × Json)) :
    0 < (spellingFields fields).length := by
  rcases fields with _ | ⟨⟨name, j⟩, fields⟩ <;> exact Nat.succ_pos _

theorem string_name (s : String) (rest : List Char) :
    string "" (s.toList.flatMap escaped ++ '"' :: rest) = some (s, rest) := by
  rw [string_quoted, String.ofList_toList, String.empty_append]

mutual

theorem value_spelling : ∀ (j : Json) (depth : Nat) (rest : List Char), j.Readable →
    (spelling j).length ≤ depth → AtEnd rest → value depth (spelling j ++ rest) = some (j, rest)
  | null, depth + 1, rest, _, _, _ => rfl
  | bool true, depth + 1, rest, _, _, _ => rfl
  | bool false, depth + 1, rest, _, _, _ => rfl
  | int n, depth + 1, rest, _, _, ends =>
    value_number depth (number_append (number_toString n) ends)
  | real text, depth + 1, rest, readable, _, ends =>
    value_number depth (number_append readable ends)
  | str s, depth + 1, rest, _, _, _ => by
    have text := string_name s rest
    simp only [spelling, quoted, List.cons_append, List.append_assoc, List.nil_append] at text ⊢
    rw [value, skipBlanks_cons rfl]
    simp only [text, Option.map_some]
  | arr [], depth + 1, rest, _, _, _ => rfl
  | arr (j :: js), depth + 1, rest, readable, le, _ => by
    obtain ⟨c, cs, head, solid, ne⟩ := exists_head readable.1
    have inner := items_spelling j js depth rest readable.1 readable.2 (Nat.le_of_succ_le_succ le)
    simp only [spelling, List.cons_append, List.append_assoc] at inner ⊢
    rw [value, skipBlanks_cons rfl]
    rw [head, List.cons_append] at inner ⊢
    simp only [skipBlanks_cons solid]
    split
    · rename_i closing
      exact absurd (List.cons.inj closing).1 ne
    · rw [inner]
      rfl
  | obj [], depth + 1, rest, _, _, _ => rfl
  | obj ((name, j) :: fields), depth + 1, rest, readable, le, _ => by
    have inner := members_spelling name j fields depth [] rest
      readable.1 readable.2.1 readable.2.2
      (Nat.le_of_succ_le_succ le)
    simp only [spelling, quoted, List.cons_append, List.append_assoc, List.nil_append] at inner ⊢
    rw [value, skipBlanks_cons rfl]
    change (members depth [] _).map _ = _
    rw [inner]
    rfl
  | j, 0, rest, readable, le, _ => by
    obtain ⟨c, cs, head, -⟩ := exists_head readable
    rw [head] at le
    exact absurd le (Nat.not_succ_le_zero _)

theorem items_spelling : ∀ (j : Json) (js : List Json) (depth : Nat) (rest : List Char),
    j.Readable → ReadableItems js → (spelling j ++ spellingItems js).length ≤ depth →
    items depth (spelling j ++ (spellingItems js ++ rest)) = some (j :: js, rest)
  | j, js, depth + 1, rest, readable, others, le => by
    have pos := length_spellingItems_pos js
    rw [List.length_append] at le
    have first := value_spelling j depth (spellingItems js ++ rest) readable (by omega)
      (atEnd_items js rest)
    rw [items, first]
    simp only [Option.bind_eq_bind, Option.bind_some]
    match js with
    | [] => rfl
    | j' :: js =>
      simp only [spellingItems, List.length_cons] at le
      have later := items_spelling j' js depth rest others.1 others.2 (by omega)
      simp only [spellingItems, List.cons_append, List.append_assoc] at later ⊢
      simp only [skipBlanks_cons (c := ',') rfl, later, Option.map_some]
  | j, js, 0, rest, _, _, le => by
    have pos := length_spellingItems_pos js
    rw [List.length_append] at le
    omega

theorem members_spelling : ∀ (name : String) (j : Json) (fields : List (String × Json))
    (depth : Nat) (before : List (String × Json)) (rest : List Char),
    ((before.reverse ++ (name, j) :: fields).map Prod.fst).Nodup →
    j.Readable → ReadableFields fields →
    (quoted name.toList ++ ':' :: (spelling j ++ spellingFields fields)).length ≤ depth →
    members depth before (quoted name.toList ++ ':' :: (spelling j ++
      (spellingFields fields ++ rest))) =
      some (before.reverse ++ (name, j) :: fields, rest)
  | name, j, fields, depth + 1, before, rest, distinct, readable, others, le => by
    have pos := length_spellingFields_pos fields
    simp only [List.length_append, List.length_cons] at le
    have text := string_name name (':' :: (spelling j ++ (spellingFields fields ++ rest)))
    have first := value_spelling j depth (spellingFields fields ++ rest) readable (by omega)
      (atEnd_fields fields rest)
    have fresh : name ∉ before.map Prod.fst := by
      rw [List.map_append, List.map_reverse] at distinct
      intro mem
      exact (List.nodup_append.1 distinct).2.2 name (List.mem_reverse.2 mem) name
        (List.mem_cons_self ..) rfl
    simp only [quoted, List.cons_append, List.append_assoc, List.nil_append]
    rw [members, skipBlanks_cons rfl]
    simp only [text, Option.bind_eq_bind, Option.bind_some]
    rw [skipBlanks_cons rfl]
    simp only [first, Option.bind_some, setField_of_not_mem fresh]
    match fields with
    | [] =>
      simp [spellingFields, skipBlanks_cons (c := '\x7d') rfl]
    | (name', j') :: fields =>
      simp only [spellingFields, List.length_cons, List.length_append] at le
      have later := members_spelling name' j' fields depth ((name, j) :: before) rest
        (by simpa using distinct) others.1 others.2
        (by simp only [List.length_append, List.length_cons]; omega)
      simp only [spellingFields, List.cons_append, List.append_assoc] at later ⊢
      simp only [skipBlanks_cons (c := ',') rfl, later]
      simp
  | name, j, fields, 0, before, rest, _, _, _, le => by
    simp at le
end

/-- Reading gives back what was written. -/
theorem read?_toText {j : Json} (readable : j.Readable) : read? j.toText = some j := by
  have whole := value_spelling j ((spelling j).length + 1) [] readable (Nat.le_succ _)
    (fun _ _ none => nomatch none)
  rw [List.append_nil] at whole
  simp only [read?, toList_toText, whole]
  rfl

/-- A number that is read as a real stays one when it is written alone. -/
theorem readable_of_number {cs rest : List Char} {j : Json} (h : number cs = some (j, rest)) :
    j.Readable := by
  have all : ∀ c ∈ cs.takeWhile inNumber, inNumber c = true := fun c mem =>
    List.mem_takeWhile_imp mem
  have alone {text : String} (taken : text.toList = cs.takeWhile inNumber)
      (read : number cs = some (.real text, rest)) : Readable (.real text) := by
    rw [Readable, number_eq, taken, List.takeWhile_eq_self_iff.2 all,
      List.dropWhile_eq_nil_iff.2 all]
    rw [number_eq] at read
    split at read
    · cases read
    · split at read <;> cases read <;> simp_all
    · split at read <;> cases read
      simp_all
  have read := h
  rw [number_eq] at h
  split at h
  · cases h
  · split at h <;> cases h
    · exact alone String.toList_ofList read
    · exact alone String.toList_ofList read
    · exact trivial
  · split at h <;> cases h
    · exact trivial
    · exact alone String.toList_ofList read

theorem readableItems_iff {js : List Json} : ReadableItems js ↔ ∀ j ∈ js, j.Readable := by
  induction js with
  | nil => simp [ReadableItems]
  | cons j js ih => simp [ReadableItems, ih]

theorem readableFields_iff {fields : List (String × Json)} :
    ReadableFields fields ↔ ∀ field ∈ fields, field.2.Readable := by
  induction fields with
  | nil => simp [ReadableFields]
  | cons field fields ih => simp [ReadableFields, ih]

theorem readable_setField {fields : List (String × Json)} (old : (obj fields).Readable)
    (name : String) {j : Json} (readable : j.Readable) :
    (obj (setField fields name j)).Readable := by
  refine ⟨List.nodup_cons.2 ⟨?_, old.1.sublist (List.filter_sublist.map _)⟩, readable,
    readableFields_iff.2 fun field mem => ?_⟩
  · rw [List.mem_map]
    rintro ⟨field, mem, same⟩
    exact bne_iff_ne.1 (List.mem_filter.1 mem).2 same
  · exact readableFields_iff.1 old.2 field (List.mem_filter.1 mem).1

theorem readable_reverse {fields : List (String × Json)} (readable : (obj fields).Readable) :
    (obj fields.reverse).Readable := by
  refine ⟨?_, readableFields_iff.2 fun field mem => ?_⟩
  · rw [List.map_reverse]
    exact List.nodup_reverse.2 readable.1
  · exact readableFields_iff.1 readable.2 field (List.mem_reverse.1 mem)

/-- What reading gives at a depth can be read again, be it a value, items or fields. -/
structure GivesReadable (depth : Nat) : Prop where
  value {cs rest : List Char} {j : Json} (h : value depth cs = some (j, rest)) : j.Readable
  items {cs rest : List Char} {js : List Json} (h : items depth cs = some (js, rest)) :
    ReadableItems js
  members {before fields : List (String × Json)} {cs rest : List Char}
    (old : (obj before).Readable) (h : members depth before cs = some (fields, rest)) :
    (obj fields).Readable

section Deeper

variable {depth : Nat} (inner : GivesReadable depth) {cs rest : List Char}

include inner

theorem readable_of_value {j : Json} (h : value (depth + 1) cs = some (j, rest)) :
    j.Readable := by
  rw [value] at h
  split at h
  case h_4 =>
    obtain ⟨⟨s, after⟩, -, eq⟩ := Option.map_eq_some_iff.1 h
    cases eq
    exact trivial
  case h_5 =>
    split at h
    · cases h
      exact trivial
    · obtain ⟨⟨js, after⟩, read, eq⟩ := Option.map_eq_some_iff.1 h
      cases eq
      exact inner.items read
  case h_6 =>
    have empty : (obj []).Readable := ⟨.nil, trivial⟩
    split at h
    · cases h
      exact empty
    · obtain ⟨⟨fields, after⟩, read, eq⟩ := Option.map_eq_some_iff.1 h
      cases eq
      exact inner.members empty read
  case h_7 => exact readable_of_number h
  all_goals
    cases h
    exact trivial

theorem readable_of_items {js : List Json} (h : items (depth + 1) cs = some (js, rest)) :
    ReadableItems js := by
  rw [items] at h
  obtain ⟨⟨j, after⟩, first, h⟩ := Option.bind_eq_some_iff.1 h
  dsimp only at h
  split at h
  · obtain ⟨⟨others, after⟩, read, eq⟩ := Option.map_eq_some_iff.1 h
    cases eq
    exact ⟨inner.value first, inner.items read⟩
  · cases h
    exact ⟨inner.value first, trivial⟩
  · cases h

theorem readable_of_members {before fields : List (String × Json)} (old : (obj before).Readable)
    (h : members (depth + 1) before cs = some (fields, rest)) : (obj fields).Readable := by
  rw [members] at h
  split at h
  · obtain ⟨⟨name, after⟩, -, h⟩ := Option.bind_eq_some_iff.1 h
    dsimp only at h
    split at h
    · obtain ⟨⟨j, after⟩, read, h⟩ := Option.bind_eq_some_iff.1 h
      have grown := readable_setField old name (inner.value read)
      dsimp only at h
      split at h
      · exact inner.members grown h
      · cases h
        exact readable_reverse grown
      · cases h
    · cases h
  · cases h

end Deeper

theorem givesReadable (depth : Nat) : GivesReadable depth := by
  induction depth with
  | zero => exact ⟨nofun, nofun, fun _ h => nomatch h⟩
  | succ depth ih =>
    exact ⟨readable_of_value ih, readable_of_items ih, readable_of_members ih⟩

/-- What has been read can be written and read again. -/
theorem readable_of_read? {text : String} {j : Json} (h : read? text = some j) : j.Readable := by
  unfold read? at h
  dsimp only at h
  split at h
  · rename_i read
    split at h
    · cases h
      exact (givesReadable _).value read
    · cases h
  · cases h

end SLanguage.Json
