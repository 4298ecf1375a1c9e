import Mathlib.Data.List.Pairwise
import SLanguage.Functions

/-! What catalogues keep. A thing that is entered is filed under its own keys, which no
other thing of the catalogue has, and whatever was found before is found again. So a name
leads to one thing, now and later. -/

namespace SLanguage

namespace Catalog

variable {α : Type} {c d : Catalog α} {key name : String}

theorem findKey?_eq_none_iff : c.findKey? key = none ↔ ∀ row ∈ c.rows, key ∉ row.1 := by
  rw [findKey?, Option.map_eq_none_iff, List.find?_eq_none]
  refine forall₂_congr fun row _ => ?_
  rw [List.contains_iff_mem]

theorem exists_row_of_findKey? {a : α} (found : c.findKey? key = some a) :
    ∃ row ∈ c.rows, key ∈ row.1 ∧ row.2 = a := by
  obtain ⟨row, at_row, rfl⟩ := Option.map_eq_some_iff.1 found
  have contains : row.1.contains key = true := by simpa using List.find?_some at_row
  exact ⟨row, List.mem_of_find?_eq_some at_row, List.contains_iff_mem.1 contains, rfl⟩

theorem exists_row_of_mem {a : α} (mem : a ∈ c.items) : ∃ row ∈ c.rows, row.2 = a :=
  List.mem_map.1 mem

theorem items_insert {keys : List String} {a : α} (entered : c.insert keys a = .ok d) :
    d.items = c.items ++ [a] := by
  rw [items, rows_insert entered, List.map_append]
  rfl

/-- What is found in the first rows counts. -/
theorem findKey?_of_rows {e : Catalog α} (rows : e.rows = c.rows ++ d.rows) :
    e.findKey? key = (c.findKey? key).or (d.findKey? key) := by
  rw [findKey?, findKey?, findKey?, rows, List.find?_append, Option.map_or]

/-- What is found in the first catalogue is found in the second. -/
def Extends (c d : Catalog α) : Prop :=
  ∀ key a, c.findKey? key = some a → d.findKey? key = some a

namespace Extends

theorem refl (c : Catalog α) : c.Extends c :=
  fun _ _ found => found

theorem trans {e : Catalog α} (first : c.Extends d) (second : d.Extends e) : c.Extends e :=
  fun key a found => second key a (first key a found)

theorem of_rows {rows : List (List String × α)} (more : d.rows = c.rows ++ rows) :
    c.Extends d := by
  intro key a found
  rw [findKey?_of_rows (d := ⟨rows⟩) more, found, Option.some_or]

end Extends

/-- Every thing stands under its own keys, and no two of them share a key. -/
structure Filed (keysOf : α → List String) (c : Catalog α) : Prop where
  keys : ∀ row ∈ c.rows, row.1 = keysOf row.2
  apart : c.rows.Pairwise fun row row' => ∀ key ∈ row.1, key ∉ row'.1

namespace Filed

variable {keysOf : α → List String}

theorem empty : Filed keysOf (∅ : Catalog α) :=
  ⟨fun _ mem => (nomatch mem), .nil⟩

theorem insert (filed : c.Filed keysOf) {a : α} (entered : c.insert (keysOf a) a = .ok d) :
    d.Filed keysOf := by
  have rows := rows_insert entered
  have free : ∀ key ∈ keysOf a, ∀ row ∈ c.rows, key ∉ row.1 := by
    unfold Catalog.insert at entered
    split at entered
    · cases entered
    · rename_i none
      exact fun key mem => findKey?_eq_none_iff.1 (List.findSome?_eq_none_iff.1 none key mem)
  constructor
  · rw [rows]
    exact List.forall_mem_append.2 ⟨filed.keys, List.forall_mem_singleton.2 rfl⟩
  · rw [rows, List.pairwise_append]
    refine ⟨filed.apart, List.pairwise_singleton .., fun row mem row' mem' key taken own => ?_⟩
    rw [List.mem_singleton.1 mem'] at own
    exact free key own row mem taken

/-- A key stands in one row. -/
theorem row_unique (filed : c.Filed keysOf) {row row' : List String × α} (mem : row ∈ c.rows)
    (mem' : row' ∈ c.rows) (first : key ∈ row.1) (second : key ∈ row'.1) : row = row' := by
  have : Std.Symm fun row row' : List String × α => ∀ key ∈ row.1, key ∉ row'.1 :=
    ⟨fun _ _ apart key own other => apart key other own⟩
  by_contra ne
  exact filed.apart.forall mem mem' ne key first second

/-- Two things of the catalogue that share a key are one. -/
theorem eq_of_key (filed : c.Filed keysOf) {a b : α} (mem : a ∈ c.items) (mem' : b ∈ c.items)
    (first : key ∈ keysOf a) (second : key ∈ keysOf b) : a = b := by
  obtain ⟨row, at_row, rfl⟩ := exists_row_of_mem mem
  obtain ⟨row', at_row', rfl⟩ := exists_row_of_mem mem'
  rw [← filed.keys row at_row] at first
  rw [← filed.keys row' at_row'] at second
  rw [filed.row_unique at_row at_row' first second]

/-- A thing is entered where it may stand beside the others. -/
theorem insert_eq_ok {a : α} (filed : Filed keysOf ⟨c.rows ++ [(keysOf a, a)]⟩) :
    c.insert (keysOf a) a = .ok ⟨c.rows ++ [(keysOf a, a)]⟩ := by
  have free : c.holder? (keysOf a) = none := by
    refine List.findSome?_eq_none_iff.2 fun key own =>
      findKey?_eq_none_iff.2 fun row mem taken => ?_
    have apart := (List.pairwise_append.1 filed.apart).2.2
    exact apart row mem (keysOf a, a) (List.mem_singleton.2 rfl) key taken own
  rw [Catalog.insert, free]

theorem of_append {rows rows' : List (List String × α)} (filed : Filed keysOf ⟨rows ++ rows'⟩) :
    Filed keysOf ⟨rows⟩ :=
  ⟨(List.forall_mem_append.1 filed.keys).1, (List.pairwise_append.1 filed.apart).1⟩

/-- The order of the rows does not matter. -/
theorem of_perm (filed : c.Filed keysOf) (perm : c.rows.Perm d.rows) : d.Filed keysOf where
  keys row mem := filed.keys row (perm.mem_iff.2 mem)
  apart := filed.apart.perm perm fun apart key own other => apart key other own

theorem findKey?_of_perm (filed : c.Filed keysOf) (perm : c.rows.Perm d.rows) :
    d.findKey? key = c.findKey? key := by
  cases found : c.findKey? key with
  | none =>
    rw [findKey?_eq_none_iff] at found ⊢
    exact fun row mem => found row (perm.mem_iff.2 mem)
  | some a =>
    obtain ⟨row, mem, holds, rfl⟩ := exists_row_of_findKey? found
    have mem' := perm.mem_iff.1 mem
    cases found' : d.findKey? key with
    | none => exact absurd holds (findKey?_eq_none_iff.1 found' row mem')
    | some b =>
      obtain ⟨row', at_row', holds', rfl⟩ := exists_row_of_findKey? found'
      rw [(filed.of_perm perm).row_unique at_row' mem' holds' holds]

theorem extends_of_perm (filed : c.Filed keysOf) (perm : c.rows.Perm d.rows) : c.Extends d :=
  fun _ _ found => (filed.findKey?_of_perm perm).trans found

/-- A thing may take the place of one that has the same keys. -/
theorem replace (filed : c.Filed keysOf) {a b : α} (found : c.find? name = some a)
    (same : keysOf b = keysOf a) : (c.replace name b).Filed keysOf := by
  have keys_kept : ∀ row ∈ (c.replace name b).rows, ∃ old ∈ c.rows, row.1 = old.1 ∧
      (row.2 = old.2 ∨ Text.key name ∈ old.1 ∧ row.2 = b) := by
    intro row mem
    obtain ⟨old, at_old, rfl⟩ := List.mem_map.1 mem
    by_cases holds : old.1.contains (Text.key name)
    · exact ⟨old, at_old, by rw [if_pos holds], .inr ⟨by simpa using holds, by rw [if_pos holds]⟩⟩
    · exact ⟨old, at_old, by rw [if_neg holds], .inl (by rw [if_neg holds])⟩
  obtain ⟨home, at_home, holds, rfl⟩ := exists_row_of_findKey? found
  constructor
  · intro row mem
    obtain ⟨old, at_old, keys, stays | ⟨taken, rfl⟩⟩ := keys_kept row mem
    · rw [keys, stays, filed.keys old at_old]
    · rw [keys, same, filed.row_unique at_old at_home taken holds, filed.keys home at_home]
  · have apart := filed.apart
    rw [← List.pairwise_map (f := Prod.fst) (R := fun keys keys' => ∀ key ∈ keys, key ∉ keys')]
      at apart ⊢
    rwa [keys_replace]

/-- Where a thing has taken the place of another, it is found in place of that one only. -/
theorem findKey?_replace (filed : c.Filed keysOf) {a b a' : α} (found : c.find? name = some a)
    (found' : c.findKey? key = some a') :
    (c.replace name b).findKey? key = some a' ∨
      (c.replace name b).findKey? key = some b ∧ a' = a := by
  obtain ⟨row, at_row, rfl⟩ := Option.map_eq_some_iff.1 found'
  let put (row : List String × α) : List String × α :=
    if row.1.contains (Text.key name) then (row.1, b) else row
  have kept : (fun row : List String × α => row.1.contains key) ∘ put =
      fun row => row.1.contains key := by
    funext row
    simp only [put, Function.comp_apply]
    split <;> rfl
  have placed : (c.replace name b).findKey? key = some (put row).2 := by
    change ((c.rows.map put).find? _).map Prod.snd = _
    rw [List.find?_map, kept, at_row]
    rfl
  rw [placed]
  by_cases holds : row.1.contains (Text.key name)
  · obtain ⟨home, at_home, own, rfl⟩ := exists_row_of_findKey? found
    have same : row = home :=
      filed.row_unique (List.mem_of_find?_eq_some at_row) at_home (by simpa using holds) own
    exact .inr ⟨by simp only [put, holds, if_true], congrArg Prod.snd same⟩
  · exact .inl (by simp only [put, holds, Bool.false_eq_true, if_false])

end Filed

/-- A thing takes the place of another without a name being won or lost. -/
theorem findKey?_replace_eq_none {b : α} :
    (c.replace name b).findKey? key = none ↔ c.findKey? key = none := by
  have by_keys (d : Catalog α) :
      d.findKey? key = none ↔ ∀ keys ∈ d.rows.map Prod.fst, key ∉ keys := by
    rw [findKey?_eq_none_iff, List.forall_mem_map]
  rw [by_keys, by_keys, keys_replace]

theorem mem_items_replace {a b : α} (mem : a ∈ (c.replace name b).items) :
    a = b ∨ a ∈ c.items := by
  obtain ⟨row, at_row, rfl⟩ := exists_row_of_mem mem
  obtain ⟨old, at_old, rfl⟩ := List.mem_map.1 at_row
  split
  · exact .inl rfl
  · exact .inr (List.mem_map_of_mem at_old)

end Catalog

namespace Functions

/-- What holds of the empty table and is kept by every function that is entered. -/
theorem ofPrograms_induction {motive : Functions → Prop} {programs : List Program}
    (empty : motive ∅)
    (entered : ∀ functions functions' p, p ∈ programs → motive functions →
      functions.add p = .ok functions' → motive functions') :
    motive (ofPrograms programs) := by
  unfold ofPrograms
  generalize (∅ : Functions) = functions at empty ⊢
  induction programs generalizing functions with
  | nil => exact empty
  | cons p programs ih =>
    refine ih (fun f f' q mem => entered f f' q (List.mem_cons_of_mem _ mem)) _ ?_
    change motive ((functions.add p).toOption.getD functions)
    cases added : functions.add p with
    | error holder => exact empty
    | ok functions' => exact entered functions functions' p (List.mem_cons_self ..) empty added

theorem filed_ofPrograms (programs : List Program) :
    (ofPrograms programs).Filed Program.keys :=
  ofPrograms_induction .empty fun _ _ _ _ filed added => filed.insert added

theorem mem_of_mem_ofPrograms {programs : List Program} :
    ∀ f ∈ (ofPrograms programs).items, f ∈ programs := by
  refine ofPrograms_induction (motive := fun functions => ∀ f ∈ functions.items, f ∈ programs)
    (List.forall_mem_nil _) ?_
  intro functions functions' p own old added
  rw [Catalog.items_insert added]
  exact List.forall_mem_append.2 ⟨old, List.forall_mem_singleton.2 own⟩

end Functions

end SLanguage
