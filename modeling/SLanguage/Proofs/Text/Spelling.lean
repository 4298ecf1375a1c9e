import SLanguage.Proofs.Text.Names
import SLanguage.Text.Fold

/-! Names as they are typed. Letters of any case and blanks at the ends make no difference to the
key of a text, so the texts with the key of a name are its spellings. -/

namespace SLanguage.Text

/-- The text is the name in letters of any case, with blanks around it. -/
def Spells (text name : String) : Prop :=
  ∃ front spelled back : String, text = front ++ spelled ++ back ∧
    (∀ c ∈ front.toList, isBlank c = true) ∧ (∀ c ∈ back.toList, isBlank c = true) ∧
    fold spelled = fold name

theorem isBlank_of_range {c : Char} (low : 0x20 < c.toNat) (high : c.toNat < 0x85) :
    isBlank c = false := by
  simp only [isBlank, Bool.or_eq_false_iff, Bool.and_eq_false_iff, decide_eq_false_iff_not,
    beq_eq_false_iff_ne]
  omega

@[simp] theorem isBlank_toLower (c : Char) : isBlank c.toLower = isBlank c := by
  by_cases upper : c.val ≥ 'A'.val ∧ c.val ≤ 'Z'.val
  · have range : 65 ≤ c.toNat ∧ c.toNat ≤ 90 := upper
    have lower : c.toLower.toNat = c.toNat + 32 := by
      have shifted : c.toLower.toNat = (c.val + 32).toNat := congrArg Char.toNat (dif_pos upper)
      rw [shifted, UInt32.toNat_add]
      exact Nat.mod_eq_of_lt (by change c.toNat + 32 < _; omega)
    rw [isBlank_of_range (by omega) (by omega), isBlank_of_range (by omega) (by omega)]
  · have same : c.toLower = c := dif_neg upper
    rw [same]

theorem trimChars_map_toLower (cs : List Char) :
    trimChars (cs.map Char.toLower) = (trimChars cs).map Char.toLower := by
  have same : isBlank ∘ Char.toLower = isBlank := funext isBlank_toLower
  simp only [trimChars, List.dropWhile_map, same, ← List.map_reverse]

theorem fold_trim (s : String) : fold (trim s) = trim (fold s) := by
  rw [fold, toList_trim, ← trimChars_map_toLower, trim, toList_fold]

/-- Blanks at the ends are cut off. -/
theorem trimChars_append {front back : List Char} (cs : List Char)
    (blank : ∀ c ∈ front, isBlank c = true) (blank' : ∀ c ∈ back, isBlank c = true) :
    trimChars (front ++ cs ++ back) = trimChars cs := by
  have none : back.dropWhile isBlank = [] := List.dropWhile_eq_nil_iff.2 blank'
  have behind : ∀ c ∈ back.reverse, isBlank c = true :=
    fun c mem => blank' c (List.mem_reverse.1 mem)
  rw [trimChars, List.append_assoc, List.dropWhile_append_of_pos blank, List.dropWhile_append]
  split
  · rename_i empty
    rw [none, trimChars, List.isEmpty_iff.1 empty]
  · rw [List.reverse_append, List.dropWhile_append_of_pos behind, trimChars]

/-- What is cut off is blank. -/
theorem exists_trimmed (cs : List Char) : ∃ front back, cs = front ++ trimChars cs ++ back ∧
    (∀ c ∈ front, isBlank c = true) ∧ ∀ c ∈ back, isBlank c = true := by
  refine ⟨cs.takeWhile isBlank, (cs.dropWhile isBlank).rtakeWhile isBlank, ?_,
    fun c => List.mem_takeWhile_imp, fun c => List.mem_rtakeWhile_imp⟩
  have cut : trimChars cs = (cs.dropWhile isBlank).rdropWhile isBlank := rfl
  rw [cut, List.append_assoc, List.rdropWhile_append_rtakeWhile, List.takeWhile_append_dropWhile]

theorem trimChars_eq_nil_iff {cs : List Char} :
    trimChars cs = [] ↔ ∀ c ∈ cs, isBlank c = true := by
  constructor
  · intro empty
    obtain ⟨front, back, parts, blank, blank'⟩ := exists_trimmed cs
    rw [parts, empty, List.append_nil]
    exact List.forall_mem_append.2 ⟨blank, blank'⟩
  · intro blank
    have cut := trimChars_append [] blank (List.forall_mem_nil _)
    rwa [List.append_nil, List.append_nil] at cut

variable {text name : String}

theorem Spells.key_eq (spells : Spells text name) : key text = key name := by
  obtain ⟨front, spelled, back, rfl, blank, blank', same⟩ := spells
  have cut : trim (front ++ spelled ++ back) = trim spelled := by
    rw [trim, String.toList_append, String.toList_append, trimChars_append _ blank blank', trim]
  rw [key, cut, fold_trim, same, ← fold_trim, key]

/-- The spellings of a trimmed name are the texts with its key. -/
theorem spells_iff (trimmed : trim name = name) : Spells text name ↔ key text = fold name := by
  constructor
  · intro spells
    rw [spells.key_eq, key, trimmed]
  · intro same
    obtain ⟨front, back, parts, blank, blank'⟩ := exists_trimmed text.toList
    refine ⟨.ofList front, trim text, .ofList back, ?_, ?_, ?_, same⟩
    · rw [← String.toList_inj, String.toList_append, String.toList_append, toList_trim,
        String.toList_ofList, String.toList_ofList, ← parts]
    · rwa [String.toList_ofList]
    · rwa [String.toList_ofList]

end SLanguage.Text
