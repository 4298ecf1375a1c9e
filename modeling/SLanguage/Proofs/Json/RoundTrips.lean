import SLanguage.Proofs.Json.Shapes

/-! Round trips of the interface: a value is read back from its JSON value and from its JSON
text, and what any text is read as is read again from what it is written as. -/

namespace SLanguage

/-- Every argument of the record has a key of its own. -/
def Record.Keyed (r : Record) : Prop := (r.arguments.map Prod.fst).Nodup

def Definition.Keyed (d : Definition) : Prop := ∀ r ∈ d.records, r.Keyed

def Bundle.Keyed (b : Bundle) : Prop := b.main.Keyed ∧ ∀ d ∈ b.functions, d.Keyed

open Json (readable_obj_iff)

/-! Text can hold what keeps its keys apart. -/

namespace Shape

variable {α : Type} [Shape α]

/-- Only proper values are read from JSON values that text can hold. -/
def Gives (proper : α → Prop) : Prop :=
  ∀ ⦃j : Json⦄ ⦃a : α⦄, j.Readable → decode? j = some a → proper a

theorem readable_list {l : List α} (each : ∀ a ∈ l, (encode a).Readable) :
    (encode l).Readable := by
  change Json.ReadableItems (l.map encode)
  rwa [Json.readableItems_iff, List.forall_mem_map]

end Shape

theorem ArgumentMap.readable {m : ArgumentMap} (keyed : (m.entries.map Prod.fst).Nodup) :
    (encode m).Readable := by
  refine readable_obj_iff.2 ⟨?_, List.forall_mem_map.2 fun _ _ => trivial⟩
  rwa [List.map_map]

open Shape (Gives readable_list)
open Shape.Textual (readable)

theorem Record.Keyed.readable {r : Record} (keyed : r.Keyed) : (encode r).Readable := by
  have arguments : (encode (ArgumentMap.mk r.arguments)).Readable := ArgumentMap.readable keyed
  exact readable_obj_iff.2 (by simp [Shape.Textual.readable, arguments])

theorem Definition.Keyed.readable {d : Definition} (keyed : d.Keyed) : (encode d).Readable := by
  have records := readable_list fun r mem => (keyed r mem).readable
  exact readable_obj_iff.2 (by simp [Shape.Textual.readable, records])

theorem Bundle.Keyed.readable {b : Bundle} (keyed : b.Keyed) : (encode b).Readable := by
  have functions := readable_list fun d mem => (keyed.2 d mem).readable
  exact readable_obj_iff.2 (by simp [keyed.1.readable, functions])

/-! What text holds keeps its keys apart, and so does what is read from it. -/

namespace Shape.Gives

variable {α : Type} [Shape α] {proper : α → Prop}

theorem list (gives : Gives proper) : Gives fun l : List α => ∀ a ∈ l, proper a := by
  intro j l fits decoded
  cases j with
  | arr items =>
    replace fits := Json.readableItems_iff.1 fits
    replace decoded : decodeAll? items = some l := decoded
    induction items generalizing l with
    | nil => cases decoded; exact List.forall_mem_nil _
    | cons item items ih =>
      obtain ⟨a, first, rest, others, rfl⟩ : ∃ a, decode? item = some a ∧
          ∃ rest, decodeAll? items = some rest ∧ a :: rest = l := by
        simpa [decodeAll?, Option.bind_eq_some_iff] using decoded
      rw [List.forall_mem_cons] at fits ⊢
      exact ⟨gives fits.1 first, ih fits.2 others⟩
  | _ => cases decoded

variable {fields : List (String × Json)} {name : String} {a : α}

theorem readable_of_lookup {j : Json} (fits : (Json.obj fields).Readable)
    (found : fields.lookup name = some j) : j.Readable := by
  obtain ⟨before, after, rfl, -⟩ := List.lookup_eq_some_iff.1 found
  exact (readable_obj_iff.1 fits).2 (name, j) (by simp)

theorem required? (gives : Gives proper) (fits : (Json.obj fields).Readable)
    (read : Json.required? fields name = some a) : proper a := by
  obtain ⟨j, found, decoded⟩ := Option.bind_eq_some_iff.1 read
  exact gives (readable_of_lookup fits found) decoded

theorem defaulted? (gives : Gives proper) {default : α} (absent : proper default)
    (fits : (Json.obj fields).Readable)
    (read : Json.defaulted? fields name default = some a) : proper a := by
  unfold Json.defaulted? at read
  split at read
  next j found => exact gives (readable_of_lookup fits found) read
  next => cases read; exact absent

end Shape.Gives

theorem Json.fields?_eq_some_iff {j : Json} {fields : List (String × Json)} :
    j.fields? = some fields ↔ j = .obj fields := by
  cases j <;> simp [Json.fields?]

theorem eq_map_of_decodeTexts? {fields : List (String × Json)}
    {entries : List (String × String)} (read : decodeTexts? fields = some entries) :
    fields = entries.map fun entry => (entry.1, .str entry.2) := by
  fun_induction decodeTexts? fields generalizing entries with
  | case1 => cases read; rfl
  | case2 name text rest ih =>
    obtain ⟨others, found, rfl⟩ : ∃ others, decodeTexts? rest = some others ∧
        (name, text) :: others = entries := by
      simpa [Option.bind_eq_some_iff] using read
    rw [List.map_cons, ← ih found]
  | case3 => cases read

theorem ArgumentMap.gives_keyed :
    Gives fun m : ArgumentMap => (m.entries.map Prod.fst).Nodup := by
  intro j m fits decoded
  cases j with
  | obj fields =>
    obtain ⟨entries, read, rfl⟩ := Option.map_eq_some_iff.1 decoded
    have nodup := (readable_obj_iff.1 fits).1
    rwa [eq_map_of_decodeTexts? read, List.map_map] at nodup
  | _ => cases decoded

theorem Record.gives_keyed : Gives Record.Keyed := by
  intro j r fits decoded
  obtain ⟨fields, rfl, arguments, read, _, -, _, -, _, -, rfl⟩ :
      ∃ fields, j = .obj fields ∧
      ∃ arguments : ArgumentMap, Json.defaulted? fields "arguments" ⟨[]⟩ = some arguments ∧
      ∃ name, Json.required? fields "name" = some name ∧
      ∃ label?, Json.optional? fields "label" = some label? ∧
      ∃ subject, Json.defaulted? fields "variable" "" = some subject ∧
      Record.mk name label? subject arguments.entries = r := by
    simpa [decode?, Option.bind_eq_some_iff, Json.fields?_eq_some_iff] using decoded
  refine ArgumentMap.gives_keyed.defaulted? ?_ fits read
  exact List.nodup_nil

theorem Definition.gives_keyed : Gives Definition.Keyed := by
  intro j d fits decoded
  obtain ⟨fields, rfl, _, -, _, -, records, read, rfl⟩ :
      ∃ fields, j = .obj fields ∧
      ∃ name, Json.required? fields "name" = some name ∧
      ∃ displayName?, Json.optional? fields "display_name" = some displayName? ∧
      ∃ records, Json.required? fields "instructions" = some records ∧
      Definition.mk name displayName? records = d := by
    simpa [decode?, Option.bind_eq_some_iff, Json.fields?_eq_some_iff] using decoded
  exact Record.gives_keyed.list.required? fits read

theorem Bundle.gives_keyed : Gives Bundle.Keyed := by
  intro j b fits decoded
  obtain ⟨fields, rfl, main, readMain, functions, readFunctions, rfl⟩ :
      ∃ fields, j = .obj fields ∧
      ∃ main, Json.required? fields "main" = some main ∧
      ∃ functions, Json.defaulted? fields "functions" [] = some functions ∧
      Bundle.mk main functions = b := by
    simpa [decode?, Option.bind_eq_some_iff, Json.fields?_eq_some_iff] using decoded
  exact ⟨Definition.gives_keyed.required? fits readMain,
    Definition.gives_keyed.list.defaulted? (List.forall_mem_nil _) fits readFunctions⟩

namespace Shape

variable {α : Type} [Shape α] {proper : α → Prop}

/-- The JSON text of a value. -/
def toText (a : α) : String := (encode a).toText

/-- The value of a JSON text. -/
def ofText? (text : String) : Option α := Json.read? text >>= decode?

variable (proper) in
/-- A value is read back from its JSON value, and a proper one from its text. What any text
is read as is proper, and so it is read again, as the same, from what it is written as. -/
structure RoundTrips : Prop where
  value (a : α) : decode? (encode a) = some a
  text (a : α) : proper a → ofText? (toText a) = some a
  again (text : String) (a : α) :
    ofText? text = some a → proper a ∧ ofText? (toText a) = some a

theorem roundTrips [Faithful α] (fits : ∀ a, proper a → (encode a).Readable)
    (gives : Gives proper) : RoundTrips proper := by
  have text (a : α) (ok : proper a) : ofText? (toText a) = some a := by
    rw [ofText?, toText, Json.read?_toText (fits a ok)]
    exact Faithful.decode?_encode a
  refine ⟨Faithful.decode?_encode, text, ?_⟩
  intro t a found
  obtain ⟨j, read, decoded⟩ := Option.bind_eq_some_iff.1 found
  have ok := gives (Json.readable_of_read? read) decoded
  exact ⟨ok, text a ok⟩

theorem roundTrips_textual [Faithful α] [Textual α] : RoundTrips fun _ : α => True :=
  roundTrips (fun a _ => readable a) fun _ _ _ _ => trivial

/-- The shapes of the interface round-trip. The keys of a record's arguments are apart in every
record read from a text, and wherever they are, text holds the record too. -/
theorem interface_roundTrips :
    RoundTrips Bundle.Keyed ∧ RoundTrips Definition.Keyed ∧ RoundTrips Record.Keyed ∧
    (RoundTrips fun _ : RunRequest => True) ∧ (RoundTrips fun _ : Request => True) ∧
    (RoundTrips fun _ : RunResponse => True) ∧ (RoundTrips fun _ : Outcome => True) ∧
    (RoundTrips fun _ : Snapshot => True) ∧ (RoundTrips fun _ : PastRun => True) ∧
    (RoundTrips fun _ : Config => True) ∧ (RoundTrips fun _ : Summary => True) :=
  ⟨roundTrips (fun _ => Bundle.Keyed.readable) Bundle.gives_keyed,
    roundTrips (fun _ => Definition.Keyed.readable) Definition.gives_keyed,
    roundTrips (fun _ => Record.Keyed.readable) Record.gives_keyed, roundTrips_textual,
    roundTrips_textual, roundTrips_textual, roundTrips_textual, roundTrips_textual,
    roundTrips_textual, roundTrips_textual, roundTrips_textual⟩

end Shape

end SLanguage
