import SLanguage.Json.Engine
import SLanguage.Proofs.Json.Reading

/-! Shapes give back what they are given. What is written in a shape is read back as the same
value, from the JSON value and from its text, and what can be read is read again as the same
from what it is written as. Records of instructions are the only values that text might not
hold: their arguments become the fields of an object, so no key may be there twice. -/

namespace SLanguage

/-- What is written in the shape is read back. -/
class Shape.Faithful (α : Type) [Shape α] : Prop where
  decode?_encode (a : α) : decode? (encode a) = some a

/-- No value is written as `null`, so that an absent one can be told apart. -/
class Shape.Present (α : Type) [Shape α] : Prop where
  encode_ne_null (a : α) : encode a ≠ .null

/-- Text can hold every value. -/
class Shape.Textual (α : Type) [Shape α] : Prop where
  readable (a : α) : (encode a).Readable

/-- Every value has a word of its own. -/
class Worded.Lawful (α : Type) [Worded α] : Prop where
  mem_members (a : α) : a ∈ Worded.members
  distinct : ((Worded.members : List α).map Worded.word).Nodup

open Shape.Faithful (decode?_encode)
open Shape.Textual (readable)

namespace Json

theorem readable_obj_iff {fields : List (String × Json)} :
    (obj fields).Readable ↔
      (fields.map Prod.fst).Nodup ∧ ∀ field ∈ fields, field.2.Readable :=
  and_congr_right' readableFields_iff

/-- A shape that is read from fields is read from an object of these fields. -/
theorem fields?_bind {β : Type} (fields : List (String × Json))
    (read : List (String × Json) → Option β) : ((obj fields).fields? >>= read) = read fields :=
  rfl

section Fields

variable {α : Type} [Shape α] {name other : String}

theorem lookup_tail (ne : name ≠ other) (j : Json) (rest : List (String × Json)) :
    ((other, j) :: rest).lookup name = rest.lookup name := by
  rw [List.lookup_cons, beq_false_of_ne ne]

@[simp] theorem required?_tail (ne : name ≠ other) (j : Json) (rest : List (String × Json)) :
    (required? ((other, j) :: rest) name : Option α) = required? rest name := by
  rw [required?, lookup_tail ne, required?]

@[simp] theorem defaulted?_tail (ne : name ≠ other) (j : Json) (rest : List (String × Json))
    (default : α) : defaulted? ((other, j) :: rest) name default =
      defaulted? rest name default := by
  rw [defaulted?, lookup_tail ne, defaulted?]

@[simp] theorem optional?_tail (ne : name ≠ other) (j : Json) (rest : List (String × Json)) :
    (optional? ((other, j) :: rest) name : Option (Option α)) = optional? rest name :=
  defaulted?_tail ne j rest none

variable [Shape.Faithful α] (rest : List (String × Json))

@[simp] theorem required?_head (a : α) :
    required? ((name, encode a) :: rest) name = some a := by
  simp [required?, decode?_encode]

@[simp] theorem defaulted?_head (a default : α) :
    defaulted? ((name, encode a) :: rest) name default = some a := by
  simp [defaulted?, decode?_encode]

end Fields

end Json

namespace Shape

instance : Faithful String := ⟨fun _ => rfl⟩

instance : Textual String := ⟨fun _ => trivial⟩

instance : Present String := ⟨fun _ => Json.noConfusion⟩

instance : Faithful Bool := ⟨fun _ => rfl⟩

instance : Textual Bool := ⟨fun _ => trivial⟩

instance : Faithful UInt64 where
  decode?_encode n := by
    have lt : (n.toNat : Int).toNat < UInt64.size := n.toNat_lt_size
    change (if 0 ≤ (n.toNat : Int) ∧ (n.toNat : Int).toNat < UInt64.size then
      some (UInt64.ofNat (n.toNat : Int).toNat) else none) = some n
    rw [if_pos ⟨Int.natCast_nonneg _, lt⟩, Int.toNat_natCast, UInt64.ofNat_toNat]

instance : Textual UInt64 := ⟨fun _ => trivial⟩

instance : Present UInt64 := ⟨fun _ => Json.noConfusion⟩

instance : Faithful Int64 where
  decode?_encode n := by
    change (if Int64.minValue.toInt ≤ n.toInt ∧ n.toInt ≤ Int64.maxValue.toInt then
      some (Int64.ofInt n.toInt) else none) = some n
    rw [if_pos ⟨Int64.minValue_le_toInt n, Int64.toInt_le n⟩, Int64.ofInt_toInt]

instance : Textual Int64 := ⟨fun _ => trivial⟩

instance : Faithful Variable := ⟨Variable.read?_toText⟩

instance : Textual Variable := ⟨fun _ => trivial⟩

instance : Present Variable := ⟨fun _ => Json.noConfusion⟩

instance : Faithful Label := ⟨Label.read?_toText⟩

instance : Textual Label := ⟨fun _ => trivial⟩

section Composed

variable {α β : Type} [Shape α] [Shape β]

instance [Faithful α] : Faithful (List α) where
  decode?_encode l := by
    change decodeAll? (l.map encode) = some l
    induction l with
    | nil => rfl
    | cons a l ih =>
      rw [List.map_cons, decodeAll?, decode?_encode, ih]
      rfl

instance [Textual α] : Textual (List α) where
  readable l := by
    change Json.ReadableItems (l.map encode)
    rw [Json.readableItems_iff, List.forall_mem_map]
    exact fun a _ => readable a

instance [Faithful α] [Faithful β] : Faithful (α × β) where
  decode?_encode p := by
    change (do return (← decode? (encode p.1), ← decode? (encode p.2)) : Option (α × β)) = some p
    rw [decode?_encode, decode?_encode]
    rfl

instance [Textual α] [Textual β] : Textual (α × β) where
  readable p := ⟨readable p.1, readable p.2, trivial⟩

instance [Faithful α] [Present α] : Faithful (Option α) where
  decode?_encode
    | none => rfl
    | some a => by
      have given := congrArg (Option.map some) (decode?_encode a)
      have present := Present.encode_ne_null a
      change decode? (encode a) = some (some a)
      generalize encode a = j at given present
      cases j with
      | null => exact absurd rfl present
      | _ => exact given

instance [Textual α] : Textual (Option α) where
  readable
    | none => trivial
    | some a => readable a

end Composed

section Words

variable {α : Type} [Worded α]

instance [Worded.Lawful α] : Faithful α where
  decode?_encode a := by
    change (Worded.members.find? fun b => Worded.word b == Worded.word a) = some a
    have mem : a ∈ Worded.members := Worded.Lawful.mem_members a
    cases found : (Worded.members : List α).find? fun b => Worded.word b == Worded.word a with
    | none => exact absurd (beq_self_eq_true _) (List.find?_eq_none.1 found a mem)
    | some b =>
      have same : (Worded.word b == Worded.word a) = true :=
        (List.find?_eq_some_iff_append.1 found).1
      rw [List.inj_on_of_nodup_map Worded.Lawful.distinct (List.mem_of_find?_eq_some found) mem
        (beq_iff_eq.1 same)]

instance : Textual α := ⟨fun _ => trivial⟩

instance : Present α := ⟨fun _ => Json.noConfusion⟩

end Words

end Shape

instance : Worded.Lawful Architecture := ⟨fun a => by cases a <;> decide, by decide⟩

instance : Worded.Lawful Strategy := ⟨fun a => by cases a <;> decide, by decide⟩

instance : Worded.Lawful RunMode := ⟨fun a => by cases a <;> decide, by decide⟩

/-! Every shape of an object reads the fields that it writes. -/

theorem decodeTexts?_map (entries : List (String × String)) :
    decodeTexts? (entries.map fun entry => (entry.1, .str entry.2)) = some entries := by
  induction entries with
  | nil => rfl
  | cons entry entries ih =>
    rw [List.map_cons, decodeTexts?, ih]
    rfl

instance : Shape.Faithful ArgumentMap where
  decode?_encode m := by
    change (decodeTexts? (m.entries.map _)).map ArgumentMap.mk = _
    rw [decodeTexts?_map]
    rfl

open Json (fields?_bind optional? readable_obj_iff)

instance : Shape.Faithful Record :=
  ⟨fun _ => (fields?_bind _ _).trans (by simp [optional?])⟩

instance : Shape.Faithful Definition :=
  ⟨fun _ => (fields?_bind _ _).trans (by simp [optional?])⟩

instance : Shape.Faithful Bundle :=
  ⟨fun _ => (fields?_bind _ _).trans (by simp)⟩

instance : Shape.Faithful Summary :=
  ⟨fun _ => (fields?_bind _ _).trans (by simp)⟩

instance : Shape.Textual Summary :=
  ⟨fun _ => readable_obj_iff.2 (by simp [readable])⟩

instance : Shape.Faithful Outcome :=
  ⟨fun _ => (fields?_bind _ _).trans (by simp)⟩

instance : Shape.Textual Outcome :=
  ⟨fun _ => readable_obj_iff.2 (by simp [readable])⟩

instance : Shape.Faithful Snapshot :=
  ⟨fun _ => (fields?_bind _ _).trans (by simp [optional?])⟩

instance : Shape.Textual Snapshot :=
  ⟨fun _ => readable_obj_iff.2 (by simp [readable])⟩

instance : Shape.Faithful PastRun :=
  ⟨fun _ => (fields?_bind _ _).trans (by simp)⟩

instance : Shape.Textual PastRun :=
  ⟨fun _ => readable_obj_iff.2 (by simp [readable])⟩

instance : Shape.Faithful Config :=
  ⟨fun _ => (fields?_bind _ _).trans (by simp [optional?])⟩

instance : Shape.Textual Config :=
  ⟨fun _ => readable_obj_iff.2 (by simp [readable])⟩

instance : Shape.Faithful Request :=
  ⟨fun _ => (fields?_bind _ _).trans (by simp [Request.ofFields?, Request.fields, optional?])⟩

instance : Shape.Textual Request :=
  ⟨fun _ => readable_obj_iff.2 (by simp [Request.fields, readable])⟩

instance : Shape.Faithful RunRequest :=
  ⟨fun _ => (fields?_bind _ _).trans (by simp [Request.ofFields?, Request.fields, optional?])⟩

instance : Shape.Textual RunRequest :=
  ⟨fun _ => readable_obj_iff.2 (by simp [Request.fields, readable])⟩

instance : Shape.Faithful RunResponse where
  decode?_encode r := by
    -- the fields of the outcome are among those of the response
    have outcome : decode? (encode r) = some r.outcome := (fields?_bind _ _).trans (by simp)
    refine (fields?_bind _ _).trans ?_
    rw [outcome]
    simp

instance : Shape.Textual RunResponse :=
  ⟨fun _ => readable_obj_iff.2 (by simp [readable])⟩

end SLanguage
