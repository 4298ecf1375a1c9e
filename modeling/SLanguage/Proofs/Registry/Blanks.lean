import SLanguage.Proofs.Registry.Refusals

/-! Blank names. A program with a blank name is not loaded, but a display name may be given and be
blank. Then the empty key leads to the program, and only one such program has a place in a table:
two of them are at odds over a name that neither has. -/

namespace SLanguage

namespace Text

theorem fold_eq_empty_iff {s : String} : fold s = "" ↔ s = "" := by
  rw [← String.toList_inj, ← String.toList_inj, toList_fold]
  exact List.map_eq_nil_iff

theorem key_eq_empty_iff {s : String} : key s = "" ↔ trim s = "" :=
  fold_eq_empty_iff

end Text

/-- A display name is given, and it is blank. -/
def Definition.Undisplayed (d : Definition) : Prop :=
  ∃ shown, d.displayName? = some shown ∧ Text.trim shown = ""

namespace Program

/-- The display name is blank. -/
def Undisplayed (p : Program) : Prop :=
  p.header.displayName = ""

/-- The programs have a name or a display name in common that is not blank. -/
def SharesName (p q : Program) : Prop :=
  ∃ key ∈ p.keys, key ∈ q.keys ∧ key ≠ ""

/-- The programs have a name in common, or the display names of both are blank. -/
def Rivals (p q : Program) : Prop :=
  p.SharesName q ∨ p.Undisplayed ∧ q.Undisplayed

variable {p q : Program} {d : Definition} {role : Role}

theorem undisplayed_iff (loaded : ofDefinition d role = .ok p) :
    p.Undisplayed ↔ d.Undisplayed := by
  have named := (header_of_ofDefinition loaded).named
  obtain ⟨is, -, assembled⟩ := load_eq_ok loaded
  obtain ⟨positions, -, -, rfl⟩ := assemble_eq_ok assembled
  change Text.trim d.name ≠ "" at named
  change Text.trim (d.displayName?.getD d.name) = "" ↔ _
  rw [Definition.Undisplayed]
  -- without a display name the name is shown, which is not blank
  cases d.displayName? with
  | none => exact iff_of_false named (by rintro ⟨_, ⟨⟩, _⟩)
  | some shown => simp

theorem empty_mem_keys_iff (writable : p.header.Writable) : "" ∈ p.keys ↔ p.Undisplayed := by
  rw [mem_keys_iff, @eq_comm _ "" (Text.fold p.name), @eq_comm _ "" (Text.fold _),
    Text.fold_eq_empty_iff, Text.fold_eq_empty_iff]
  exact or_iff_right writable.named

theorem isCalled_blank_iff (writable : p.header.Writable) {text : String}
    (blank : Text.trim text = "") : p.IsCalled text ↔ p.Undisplayed := by
  rw [isCalled_iff writable, Text.key_eq_empty_iff.2 blank, empty_mem_keys_iff writable]

/-- Programs cannot stand in one table exactly if they are rivals. -/
theorem clashes_iff_rivals (writable : p.header.Writable) (writable' : q.header.Writable) :
    p.Clashes q ↔ p.Rivals q := by
  rw [Rivals, ← empty_mem_keys_iff writable, ← empty_mem_keys_iff writable']
  constructor
  · rintro ⟨key, own, other⟩
    by_cases blank : key = ""
    · exact .inr ⟨blank ▸ own, blank ▸ other⟩
    · exact .inl ⟨key, own, other, blank⟩
  · rintro (⟨key, own, other, -⟩ | ⟨own, other⟩)
    · exact ⟨key, own, other⟩
    · exact ⟨"", own, other⟩

end Program

namespace Registry

variable {r : Registry} {p : Program} {d : Definition} {role : Role} {text : String}

theorem writable_of_load (loaded : load d role = .ok p) : p.header.Writable :=
  Program.header_of_ofDefinition (mapError_eq_ok.1 loaded)

theorem Loads.writable {definitions : List Definition} {own : List Program}
    (loads : Loads definitions own) : ∀ f ∈ own, f.header.Writable :=
  loads.forall_mem fun _ _ _ _ => Program.header_of_ofDefinition

theorem Repeats.mono {definitions : List Definition} {atOdds atOdds' : Program → Program → Prop}
    (weaker : ∀ p q : Program, p.header.Writable → q.header.Writable → atOdds p q → atOdds' p q)
    (repeats : Repeats atOdds ∅ definitions) : Repeats atOdds' ∅ definitions := by
  obtain ⟨front, d, back, own, larger, p, parts, loads, grows, loaded, f, mem, odds⟩ := repeats
  have items : larger.items = own := grows.items
  have odds' := weaker p f (writable_of_load loaded) (loads.writable f (items ▸ mem)) odds
  exact ⟨front, d, back, own, larger, p, parts, loads, grows, loaded, f, mem, odds'⟩

theorem repeats_clashes_iff {definitions : List Definition} :
    Repeats Program.Clashes ∅ definitions ↔ Repeats Program.Rivals ∅ definitions :=
  ⟨.mono fun _ _ writable writable' => (Program.clashes_iff_rivals writable writable').1,
    .mono fun _ _ writable writable' => (Program.clashes_iff_rivals writable writable').2⟩

namespace Each

variable (each : r.Each fun p => p.header.Writable)

include each

theorem clashes_mains_iff (writable : p.header.Writable) :
    (∃ c ∈ r.mains.items, p.Clashes c.program) ↔ ∃ c ∈ r.mains.items, p.Rivals c.program :=
  exists_congr fun c => and_congr_right fun mem =>
    Program.clashes_iff_rivals writable (each.mains c mem)

theorem clashes_functions_iff (writable : p.header.Writable) :
    (∃ f ∈ r.functions.items, p.Clashes f) ↔ ∃ f ∈ r.functions.items, p.Rivals f :=
  exists_congr fun f => and_congr_right fun mem =>
    Program.clashes_iff_rivals writable (each.functions f mem)

/-- A blank text leads to a program whose display name is blank, and to nothing else. -/
theorem find?_blank (sound : r.Sound) (blank : Text.trim text = "") :
    (∀ c, r.find? text = some c ↔ c ∈ r.mains.items ∧ c.program.Undisplayed) ∧
    ∀ f, r.functions.find? text = some f ↔ f ∈ r.functions.items ∧ f.Undisplayed := by
  obtain ⟨mains, functions⟩ := each.titled sound
  refine ⟨fun c => (mains.found text c).trans ?_, fun f => (functions.found text f).trans ?_⟩
  · exact and_congr_right fun mem => Program.isCalled_blank_iff (each.mains c mem) blank
  · exact and_congr_right fun mem => Program.isCalled_blank_iff (each.functions f mem) blank

end Each

/-- A blank text leads nowhere as long as no display name is blank. -/
theorem find?_blank_eq_none {events : List Event}
    (displayed : ∀ event ∈ events, ∀ d ∈ event.definitions, ¬d.Undisplayed)
    (blank : Text.trim text = "") :
    let r := events.foldl after {}
    r.find? text = none ∧ r.functions.find? text = none := by
  intro r
  have sound : r.Sound := (sound_empty.foldl events).1
  have writable : r.Each fun p => p.header.Writable :=
    Each.foldl (fun _ _ _ => Program.header_of_ofDefinition)
      ⟨List.forall_mem_nil _, List.forall_mem_nil _⟩ sound_empty events
  have shown : r.Each fun p => ¬p.Undisplayed :=
    Each.foldl_of_mem (fun event mem d own _ _ loaded =>
        (Program.undisplayed_iff loaded).not.2 (displayed event mem d own))
      ⟨List.forall_mem_nil _, List.forall_mem_nil _⟩ sound_empty
  obtain ⟨mains, functions⟩ := writable.find?_blank sound blank
  constructor
  · refine Option.eq_none_iff_forall_ne_some.2 fun c found => ?_
    obtain ⟨mem, undisplayed⟩ := (mains c).1 found
    exact shown.mains c mem undisplayed
  · refine Option.eq_none_iff_forall_ne_some.2 fun f found => ?_
    obtain ⟨mem, undisplayed⟩ := (functions f).1 found
    exact shown.functions f mem undisplayed

/-- Whatever is registered, no program has a blank name, and a blank text leads to the program
whose display name was given and is blank, if there is one. So it leads nowhere as long as no
display name that is given is blank. A registration is refused for a name exactly if two programs,
a new one and one that is there or two functions of a bundle, have a name or a display name in
common that is not blank, or if the display names of both are blank. -/
theorem blank_leads_to_undisplayed (events : List Event) :
    let r := events.foldl after {}
    (∀ d role p, Program.ofDefinition d role = .ok p →
      p.name ≠ "" ∧ (p.Undisplayed ↔ d.Undisplayed)) ∧
    (∀ text, Text.trim text = "" →
      (∀ c, r.find? text = some c ↔ c ∈ r.mains.items ∧ c.program.Undisplayed) ∧
      ∀ f, r.functions.find? text = some f ↔ f ∈ r.functions.items ∧ f.Undisplayed) ∧
    ((∀ event ∈ events, ∀ d ∈ event.definitions, ¬d.Undisplayed) →
      ∀ text, Text.trim text = "" → r.find? text = none ∧ r.functions.find? text = none) ∧
    (∀ d, Duplicates (r.enterMain d) ↔
      ∃ p, load d .main = .ok p ∧ ∃ c ∈ r.mains.items, p.Rivals c.program) ∧
    (∀ d, Duplicates (r.enterFunction d) ↔
      ∃ p, load d .function = .ok p ∧ ∃ f ∈ r.functions.items, p.Rivals f) ∧
    ∀ b : Bundle, Duplicates (r.enterBundle b) ↔ ∃ p, load b.main .main = .ok p ∧
      (Repeats Program.Rivals ∅ b.functions ∨ ∃ own, loadFunctions b.functions ∅ = .ok own ∧
        ((∃ c ∈ r.mains.items, p.Rivals c.program) ∨
          ∃ f ∈ own.items, ∃ g ∈ r.functions.items, f.Rivals g)) := by
  intro r
  have sound : r.Sound := (sound_empty.foldl events).1
  have each : r.Each fun p => p.header.Writable :=
    Each.foldl (fun _ _ _ => Program.header_of_ofDefinition)
      ⟨List.forall_mem_nil _, List.forall_mem_nil _⟩ sound_empty events
  refine ⟨fun d role p loaded => ⟨(Program.header_of_ofDefinition loaded).named,
      Program.undisplayed_iff loaded⟩, fun text => each.find?_blank sound,
    fun displayed text => find?_blank_eq_none displayed, fun d => ?_, fun d => ?_, fun b => ?_⟩
  · refine (duplicates_enterMain sound.functions sound.filed).trans ?_
    exact exists_congr fun p => and_congr_right fun loaded =>
      each.clashes_mains_iff (writable_of_load loaded)
  · refine (duplicates_enterFunction sound.functions).trans ?_
    exact exists_congr fun p => and_congr_right fun loaded =>
      each.clashes_functions_iff (writable_of_load loaded)
  · refine (duplicates_enterBundle sound.functions sound.filed).trans ?_
    refine exists_congr fun p => and_congr_right fun loaded => ?_
    rw [repeats_clashes_iff, each.clashes_mains_iff (writable_of_load loaded)]
    refine or_congr_right (exists_congr fun own => and_congr_right fun loadedOwn => ?_)
    obtain ⟨given, loads, grows⟩ := (loadFunctions_eq_ok_iff .empty).1 loadedOwn
    have items : own.items = given := grows.items
    refine or_congr_right (exists_congr fun f => and_congr_right fun mem => ?_)
    exact each.clashes_functions_iff (loads.writable f (items ▸ mem))

/-- A function with a display name and one without are not found by a blank text. -/
theorem blank_leads_to_undisplayed_none :
    let events := [Event.function ⟨"A", some "S(x)", []⟩, .function ⟨"B", none, []⟩]
    (events.foldl after {}).functions.find? "\t " = none := by
  intro events
  obtain ⟨-, -, nowhere, -⟩ := blank_leads_to_undisplayed events
  have displayed : ∀ event ∈ events, ∀ d ∈ event.definitions, ¬d.Undisplayed := by
    simp only [events, Event.definitions, Definition.Undisplayed, List.forall_mem_cons]
    refine ⟨⟨?_, List.forall_mem_nil _⟩, ⟨?_, List.forall_mem_nil _⟩, List.forall_mem_nil _⟩
    · rintro ⟨shown, given, empty⟩
      cases given
      exact absurd empty (by decide)
    · rintro ⟨_, ⟨⟩, _⟩
  exact (nowhere displayed "\t " (by decide)).2

/-- Two functions with different names, both with a blank display name: a blank text leads to the
first, and the second is refused. -/
theorem blank_display_name_taken :
    let first : Definition := ⟨"A", some " ", []⟩
    let second : Definition := ⟨"B", some "", []⟩
    let r := [Event.function first].foldl after {}
    Text.key first.name ≠ Text.key second.name ∧ Text.trim "" = "" ∧
      r.functions.find? "" = some (blank "A" "" .function) ∧
      r.enterFunction second = .error (.duplicateFunction "B") := by
  intro first second r
  have loaded : Program.ofDefinition first .function = .ok (blank "A" "" .function) :=
    ofDefinition_blank .function (by decide)
  have loaded' : Program.ofDefinition second .function = .ok (blank "B" "" .function) :=
    ofDefinition_blank .function (by decide)
  let r' : Registry := { functions := ⟨[(["a", ""], blank "A" "" .function)]⟩ }
  have grows : Grows ∅ [blank "A" "" .function] r'.functions :=
    ⟨Catalog.Filed.empty.insert (a := blank "A" "" .function) rfl, rfl⟩
  have entered : enterFunction {} first = .ok (blank "A" "" .function, r') :=
    (enterFunction_eq_ok_iff closed_empty).2
      ⟨mapError_eq_ok.2 loaded, rfl, grows, List.forall_mem_nil _⟩
  have there : r = r' := by
    simp only [r, List.foldl_cons, List.foldl_nil, after, entered, settle]
  rw [there]
  refine ⟨by decide, by decide, rfl, (enterFunction_taken_iff grows.filed loaded').2 ?_⟩
  exact ⟨_, List.mem_singleton_self _, "", by decide, by decide⟩

end Registry

end SLanguage
