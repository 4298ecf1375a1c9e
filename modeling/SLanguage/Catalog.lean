import SLanguage.Text.Fold

/-!
Catalogues of things known under several names. A row holds a thing and the keys it
is filed under; a look-up trims and folds the name it is given. A thing is entered
only if none of its keys is taken, and then for good.
-/

namespace SLanguage

structure Catalog (α : Type) where
  rows : List (List String × α)

namespace Catalog

variable {α : Type}

instance : EmptyCollection (Catalog α) := ⟨⟨[]⟩⟩

def items (c : Catalog α) : List α :=
  c.rows.map Prod.snd

def findKey? (c : Catalog α) (key : String) : Option α :=
  (c.rows.find? fun row => row.1.contains key).map Prod.snd

def find? (c : Catalog α) (name : String) : Option α :=
  c.findKey? (Text.key name)

/-- The thing that holds the first of some keys that is taken. -/
def holder? (c : Catalog α) (keys : List String) : Option α :=
  keys.findSome? c.findKey?

/-- Enters a thing, or answers with the thing that holds one of its keys. -/
def insert (c : Catalog α) (keys : List String) (a : α) : Except α (Catalog α) :=
  match c.holder? keys with
  | some holder => .error holder
  | none => .ok ⟨c.rows ++ [(keys, a)]⟩

theorem rows_insert {c d : Catalog α} {keys : List String} {a : α}
    (h : c.insert keys a = .ok d) : d.rows = c.rows ++ [(keys, a)] := by
  unfold insert at h
  split at h
  · cases h
  · cases h
    rfl

/-- Puts another thing into the row that a name leads to, under the same keys. -/
def replace (c : Catalog α) (name : String) (a : α) : Catalog α :=
  let key := Text.key name
  ⟨c.rows.map fun row => if row.1.contains key then (row.1, a) else row⟩

/-- The keys stay as they are when a thing is replaced. -/
theorem keys_replace (c : Catalog α) (name : String) (a : α) :
    (c.replace name a).rows.map Prod.fst = c.rows.map Prod.fst := by
  simp only [replace, List.map_map]
  refine List.map_congr_left fun row _ => ?_
  simp only [Function.comp_apply]
  split <;> rfl

/-- Both catalogues together; what is found in the first one counts. -/
instance : Append (Catalog α) := ⟨fun c d => ⟨c.rows ++ d.rows⟩⟩

theorem mem_items_of_findKey? {c : Catalog α} {key : String} {a : α}
    (h : c.findKey? key = some a) : a ∈ c.items := by
  obtain ⟨row, found, rfl⟩ := Option.map_eq_some_iff.1 h
  exact List.mem_map_of_mem (List.mem_of_find?_eq_some found)

end Catalog

end SLanguage
