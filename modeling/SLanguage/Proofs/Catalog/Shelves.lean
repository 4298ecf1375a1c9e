import Mathlib.Data.List.Induction
import SLanguage.Proofs.Catalog

/-! Catalogues in two maps. One map leads from every key to a place and the other one from
places to things. The places are counted, or a thing stands at the first of its own keys. As long
as nothing is entered under a key that is taken, no key is written over, and the two maps answer
like the catalogue of the same things. -/

namespace SLanguage

/-- Enters things in order. One with a key that is taken is left out. -/
def Catalog.fill {α : Type} (rows : List (List String × α)) : Catalog α :=
  rows.foldl (fun c row => (c.insert row.1 row.2).toOption.getD c) ∅

/-- A map from keys to places and a map from places to things. -/
structure Shelves (ι α : Type) [Ord ι] where
  places : Std.TreeMap String ι := ∅
  things : Std.TreeMap ι α := ∅

namespace Shelves

variable {ι α : Type} [Ord ι]

def findKey? (t : Shelves ι α) (key : String) : Option α :=
  t.places[key]?.bind fun place => t.things[place]?

/-- The place of the first key that is taken. -/
def taken? (t : Shelves ι α) (keys : List String) : Option ι :=
  keys.findSome? fun key => t.places[key]?

def items (t : Shelves ι α) : List α :=
  t.things.toList.map Prod.snd

/-- Puts a thing at a place, to which all its keys lead from now on. -/
def put (t : Shelves ι α) (place : ι) (keys : List String) (a : α) : Shelves ι α where
  places := keys.foldl (fun places key => places.insert key place) t.places
  things := t.things.insert place a

/-- Enters a thing, or answers with what stands at the place of one of its keys. -/
def insert (choose : Shelves ι α → List String → ι) (t : Shelves ι α) (keys : List String)
    (a : α) : Except (Option α) (Shelves ι α) :=
  match t.taken? keys with
  | some place => .error t.things[place]?
  | none => .ok (t.put (choose t keys) keys a)

/-- Enters things in order. One with a key that is taken is left out. -/
def fill (choose : Shelves ι α → List String → ι) (rows : List (List String × α)) : Shelves ι α :=
  rows.foldl (fun t row => (t.insert choose row.1 row.2).toOption.getD t) {}

/-- Places are counted from 0. -/
def nextNumber (t : Shelves Nat α) (_ : List String) : Nat :=
  t.things.size

/-- The place is named by the first key. -/
def firstKey (_ : Shelves String α) (keys : List String) : String :=
  keys.headD ""

/-- The two maps hold what the catalogue holds: every key that has a place leads to a thing, and
to the one that the catalogue has under this key. -/
structure Holds (t : Shelves ι α) (c : Catalog α) : Prop where
  finds : ∀ key, t.findKey? key = c.findKey? key
  stands : ∀ (key : String) (place : ι), t.places[key]? = some place →
    ∃ a, t.things[place]? = some a
  items : t.items.Perm c.items

/-- Nothing stands at the place that is chosen, and so it stays if something is put there. -/
structure Fresh (choose : Shelves ι α → List String → ι) (invariant : Shelves ι α → Prop) :
    Prop where
  empty : invariant {}
  free : ∀ (t : Shelves ι α) (keys : List String), invariant t → t.taken? keys = none →
    keys ≠ [] → t.things[choose t keys]? = none
  put : ∀ (t : Shelves ι α) (keys : List String) (a : α), invariant t → t.taken? keys = none →
    keys ≠ [] → invariant (t.put (choose t keys) keys a)

variable {choose : Shelves ι α → List String → ι} {invariant : Shelves ι α → Prop}
  {t : Shelves ι α} {c d : Catalog α} {key : String} {keys : List String} {place : ι} {a : α}

theorem taken?_eq_none_iff : t.taken? keys = none ↔ ∀ key ∈ keys, t.places[key]? = none :=
  List.findSome?_eq_none_iff

theorem getElem?_places_put : (t.put place keys a).places[key]? =
    if key ∈ keys then some place else t.places[key]? := by
  change (keys.foldl (fun places key => places.insert key place) t.places)[key]? = _
  generalize t.places = places
  induction keys generalizing places with
  | nil => simp
  | cons first rest ih =>
    rw [List.foldl_cons, ih, Std.TreeMap.getElem?_insert]
    by_cases later : key ∈ rest
    · rw [if_pos later, if_pos (List.mem_cons_of_mem _ later)]
    · have first_iff : compare first key = .eq ↔ key = first :=
        Std.LawfulEqCmp.compare_eq_iff_eq.trans eq_comm
      simp only [later, if_false, List.mem_cons, or_false, first_iff]

namespace Holds

theorem empty : ({} : Shelves ι α).Holds ∅ where
  finds _ := by
    rw [findKey?, Std.TreeMap.getElem?_emptyc]
    rfl
  stands key place led := by
    rw [Std.TreeMap.getElem?_emptyc] at led
    cases led
  items := .nil

/-- A key has a place in the two maps exactly if the catalogue knows it. -/
theorem getElem?_places_eq_none_iff (holds : t.Holds c) :
    t.places[key]? = none ↔ c.findKey? key = none := by
  rw [← holds.finds, findKey?]
  cases led : t.places[key]? with
  | none => simp
  | some place =>
    obtain ⟨a, stands⟩ := holds.stands key place led
    simp [stands]

theorem taken?_eq_none_iff (holds : t.Holds c) :
    t.taken? keys = none ↔ c.holder? keys = none := by
  rw [Shelves.taken?_eq_none_iff, Catalog.holder?, List.findSome?_eq_none_iff]
  exact forall₂_congr fun key _ => holds.getElem?_places_eq_none_iff

/-- At the place of the first key that is taken stands what holds it in the catalogue. -/
theorem holder?_of_taken? (holds : t.Holds c) (taken : t.taken? keys = some place) :
    ∃ holder, t.things[place]? = some holder ∧ c.holder? keys = some holder := by
  induction keys with
  | nil => cases taken
  | cons key rest ih =>
    rw [taken?, List.findSome?_cons] at taken
    rw [Catalog.holder?, List.findSome?_cons]
    cases led : t.places[key]? with
    | none =>
      rw [led] at taken
      rw [holds.getElem?_places_eq_none_iff.1 led]
      exact ih taken
    | some other =>
      rw [led] at taken
      cases taken
      obtain ⟨holder, stands⟩ := holds.stands key place led
      have found : c.findKey? key = some holder := by
        rw [← holds.finds, findKey?, led, Option.bind_some, stands]
      exact ⟨holder, stands, by rw [found]⟩

end Holds

section Lawful

variable [Std.TransOrd ι]

theorem getElem?_things_put_self : (t.put place keys a).things[place]? = some a :=
  Std.TreeMap.getElem?_insert_self

variable [Std.LawfulEqOrd ι]

theorem getElem?_things_put_of_ne {other : ι} (ne : place ≠ other) :
    (t.put place keys a).things[other]? = t.things[other]? := by
  change (t.things.insert place a)[other]? = _
  rw [Std.TreeMap.getElem?_insert, if_neg fun eq => ne (Std.LawfulEqCmp.eq_of_compare eq)]

namespace Holds

/-- A thing whose keys are free is put at a new place, and no key is written over. -/
theorem put (holds : t.Holds c) (free : t.things[place]? = none)
    (entered : c.insert keys a = .ok d) : (t.put place keys a).Holds d := by
  have rows := Catalog.rows_insert entered
  have old (key : String) (other : ι) (led : t.places[key]? = some other) : place ≠ other := by
    rintro rfl
    obtain ⟨b, stands⟩ := holds.stands key place led
    rw [free] at stands
    cases stands
  have unknown : ∀ key ∈ keys, c.findKey? key = none := by
    unfold Catalog.insert at entered
    split at entered
    · cases entered
    · rename_i none
      exact List.findSome?_eq_none_iff.1 none
  refine ⟨fun key => ?_, fun key other led => ?_, ?_⟩
  · have known : d.findKey? key = (c.findKey? key).or (if key ∈ keys then some a else none) := by
      rw [Catalog.findKey?_of_rows (d := ⟨_⟩) rows]
      by_cases own : key ∈ keys <;> simp [Catalog.findKey?, own]
    rw [known, findKey?, getElem?_places_put]
    by_cases own : key ∈ keys
    · rw [if_pos own, if_pos own, unknown key own, Option.bind_some, getElem?_things_put_self,
        Option.none_or]
    · rw [if_neg own, if_neg own, Option.or_none, ← holds.finds, findKey?]
      refine Option.bind_congr fun other led => ?_
      exact getElem?_things_put_of_ne (old key other led)
  · rw [getElem?_places_put] at led
    split at led
    · cases led
      exact ⟨a, getElem?_things_put_self⟩
    · rw [getElem?_things_put_of_ne (old key other led)]
      exact holds.stands key other led
  · have : DecidableEq ι := Classical.decEq ι
    have others : (t.things.toList.filter fun x => decide ¬(place == x.1) = true) =
        t.things.toList := by
      refine List.filter_eq_self.2 fun x mem => ?_
      have stands : t.things[x.1]? = some x.2 :=
        Std.TreeMap.mem_toList_iff_getElem?_eq_some.1 mem
      have ne : place ≠ x.1 := by
        rintro rfl
        rw [free] at stands
        cases stands
      simpa using ne
    have perm := Std.TreeMap.toList_insert_perm (t := t.things) (k := place) (v := a)
    rw [others] at perm
    refine (perm.map Prod.snd).trans ?_
    rw [List.map_cons, Catalog.items_insert entered]
    exact (List.perm_append_singleton a t.items).symm.trans (holds.items.append_right _)

/-- The two maps and the catalogue refuse the same things, for the same reason. -/
theorem insert (fresh : Fresh choose invariant) (holds : t.Holds c) (kept : invariant t)
    (keyed : keys ≠ []) (a : α) :
    (∃ holder, c.insert keys a = .error holder ∧
      t.insert choose keys a = .error (some holder)) ∨
      ∃ d t', c.insert keys a = .ok d ∧ t.insert choose keys a = .ok t' ∧ t'.Holds d ∧
        invariant t' := by
  cases taken : t.taken? keys with
  | some place =>
    obtain ⟨holder, stands, held⟩ := holds.holder?_of_taken? taken
    exact .inl ⟨holder, by rw [Catalog.insert, held], by rw [Shelves.insert, taken, ← stands]⟩
  | none =>
    have entered : c.insert keys a = .ok ⟨c.rows ++ [(keys, a)]⟩ := by
      rw [Catalog.insert, holds.taken?_eq_none_iff.1 taken]
    have put : t.insert choose keys a = .ok (t.put (choose t keys) keys a) := by
      rw [Shelves.insert, taken]
    exact .inr ⟨_, _, entered, put, holds.put (fresh.free t keys kept taken keyed) entered,
      fresh.put t keys a kept taken keyed⟩

end Holds

/-- Two maps that are filled hold what the catalogue holds that is filled in the same order. -/
theorem holds_fill (fresh : Fresh choose invariant) {rows : List (List String × α)}
    (keyed : ∀ row ∈ rows, row.1 ≠ []) : (fill choose rows).Holds (Catalog.fill rows) := by
  have both : ∀ (t : Shelves ι α) (c : Catalog α), t.Holds c → invariant t →
      (rows.foldl (fun t row => (t.insert choose row.1 row.2).toOption.getD t) t).Holds
        (rows.foldl (fun c row => (c.insert row.1 row.2).toOption.getD c) c) := by
    induction rows with
    | nil => exact fun t c holds _ => holds
    | cons row rest ih =>
      intro t c holds kept
      obtain ⟨first, others⟩ := List.forall_mem_cons.1 keyed
      rw [List.foldl_cons, List.foldl_cons]
      obtain ⟨holder, refused, refused'⟩ | ⟨d, t', entered, entered', holds', kept'⟩ :=
        holds.insert fresh kept first row.2
      · rw [refused, refused']
        exact ih others t c holds kept
      · rw [entered, entered']
        exact ih others t' d holds' kept'
  exact both {} ∅ .empty fresh.empty

end Lawful

theorem firstKey_mem {t : Shelves String α} (keyed : keys ≠ []) : firstKey t keys ∈ keys := by
  cases keys with
  | nil => exact absurd rfl keyed
  | cons key rest => exact List.mem_cons_self ..

/-- Counted places are new. -/
theorem fresh_nextNumber : Fresh (α := α) nextNumber
    fun t => ∀ k, t.things.contains k = true → k < t.things.size where
  empty k stands := by simp at stands
  free t keys below _ _ := by
    have unknown : ¬t.things.contains t.things.size = true :=
      fun stands => Nat.lt_irrefl _ (below _ stands)
    rw [← Std.TreeMap.isSome_getElem?_eq_contains] at unknown
    exact Option.not_isSome_iff_eq_none.1 unknown
  put t keys a below _ _ k stands := by
    have unknown : ¬t.things.contains t.things.size = true :=
      fun stands => Nat.lt_irrefl _ (below _ stands)
    have size : (t.put (nextNumber t keys) keys a).things.size = t.things.size + 1 :=
      Std.TreeMap.size_insert.trans (if_neg unknown)
    change (t.things.insert t.things.size a).contains k = true at stands
    rw [Std.TreeMap.contains_insert, Bool.or_eq_true, beq_iff_eq,
      Std.LawfulEqCmp.compare_eq_iff_eq] at stands
    rw [size]
    obtain rfl | old := stands
    · exact Nat.lt_succ_self _
    · exact Nat.lt_succ_of_lt (below k old)

/-- A place that is named by a free key is new. -/
theorem fresh_firstKey : Fresh (α := α) firstKey
    fun t => ∀ key, t.things.contains key = true → t.places[key]? = some key where
  empty key stands := by simp at stands
  free t keys named free keyed := by
    have own : firstKey t keys ∈ keys := firstKey_mem keyed
    have unled := taken?_eq_none_iff.1 free _ own
    have unknown : ¬t.things.contains (firstKey t keys) = true := fun stands => by
      rw [named _ stands] at unled
      cases unled
    rw [← Std.TreeMap.isSome_getElem?_eq_contains] at unknown
    exact Option.not_isSome_iff_eq_none.1 unknown
  put t keys a named free keyed key stands := by
    change (t.things.insert (firstKey t keys) a).contains key = true at stands
    rw [Std.TreeMap.contains_insert, Bool.or_eq_true, beq_iff_eq,
      Std.LawfulEqCmp.compare_eq_iff_eq] at stands
    rw [getElem?_places_put]
    obtain rfl | old := stands
    · rw [if_pos (firstKey_mem keyed)]
    · have led := named key old
      have other : key ∉ keys := fun own => by
        rw [taken?_eq_none_iff.1 free key own] at led
        cases led
      rw [if_neg other, led]

end Shelves

namespace Catalog

variable {α : Type} {c : Catalog α} {keysOf : α → List String}

/-- A catalogue of things with different keys is filled by its rows. -/
theorem Filed.fill_rows (filed : c.Filed keysOf) : fill c.rows = c := by
  obtain ⟨rows⟩ := c
  induction rows using List.reverseRecOn with
  | nil => rfl
  | append_singleton rows row ih =>
    have before := ih filed.of_append
    obtain ⟨keys, a⟩ := row
    obtain rfl : keys = keysOf a := filed.keys (keys, a) (by simp)
    have entered := insert_eq_ok (c := ⟨rows⟩) filed
    dsimp only [fill] at before ⊢
    rw [List.foldl_append, before, List.foldl_cons, entered]
    rfl

end Catalog

end SLanguage
