import SLanguage.Proofs.Catalog.Shelves
import SLanguage.Proofs.Records
import SLanguage.Proofs.Registry.Bundles
import SLanguage.Proofs.Text.Spelling

/-! Names are unique and stay. No two functions of a table share a key, and no two programs of a
registry that are of one sort. Whoever comes with a key that is taken is refused. Who has been
entered is found by both names in any spelling, now and later, and is listed once. -/

namespace SLanguage

namespace Program

/-- The text spells the name or the display name of the program. -/
def IsCalled (p : Program) (text : String) : Prop :=
  Text.Spells text p.name ∨ Text.Spells text p.header.displayName

/-- The two programs cannot both stand in one table, since they share a key. -/
def Clashes (p q : Program) : Prop :=
  ∃ key ∈ p.keys, key ∈ q.keys

variable {p : Program} {d : Definition} {role : Role}

theorem mem_keys_iff {key : String} :
    key ∈ p.keys ↔ key = Text.fold p.name ∨ key = Text.fold p.header.displayName := by
  simp only [keys, name]
  split
  · rename_i same
    rw [same, or_self, List.mem_singleton]
  · rw [List.mem_cons, List.mem_singleton]

theorem keys_ne_nil (p : Program) : p.keys ≠ [] :=
  List.ne_nil_of_mem p.name_mem_keys

theorem isCalled_iff (writable : p.header.Writable) {text : String} :
    p.IsCalled text ↔ Text.key text ∈ p.keys := by
  rw [mem_keys_iff]
  exact or_congr (Text.spells_iff writable.name_trimmed)
    (Text.spells_iff writable.displayName_trimmed)

/-- The keys of a program are the names of its definition, trimmed and folded. -/
theorem mem_keys_iff_of_ofDefinition (loaded : ofDefinition d role = .ok p) {key : String} :
    key ∈ p.keys ↔ key = Text.key d.name ∨ key = Text.key d.displayName := by
  obtain ⟨is, -, assembled⟩ := load_eq_ok loaded
  obtain ⟨positions, -, -, rfl⟩ := assemble_eq_ok assembled
  exact mem_keys_iff

end Program

/-- The programs of a table are told apart by their names. -/
structure Catalog.Titled {α : Type} (program : α → Program) (c : Catalog α) : Prop where
  apart : c.items.Pairwise fun a b => ¬(program a).Clashes (program b)
  refused : ∀ (p : Program) (a : α), (∃ holder, c.insert p.keys a = .error holder) ↔
    ∃ b ∈ c.items, p.Clashes (program b)
  holder : ∀ (p : Program) (a holder : α), c.insert p.keys a = .error holder →
    holder ∈ c.items ∧ p.Clashes (program holder)
  found : ∀ text a, c.find? text = some a ↔ a ∈ c.items ∧ (program a).IsCalled text

namespace Catalog

variable {α : Type} {c : Catalog α} {program : α → Program}

namespace Filed

theorem findKey?_eq_some_iff {keysOf : α → List String} (filed : c.Filed keysOf) {key : String}
    {a : α} : c.findKey? key = some a ↔ a ∈ c.items ∧ key ∈ keysOf a := by
  constructor
  · intro found
    obtain ⟨row, mem, own, rfl⟩ := exists_row_of_findKey? found
    exact ⟨List.mem_map_of_mem mem, filed.keys row mem ▸ own⟩
  · rintro ⟨mem, own⟩
    obtain ⟨row, at_row, rfl⟩ := exists_row_of_mem mem
    cases found : c.findKey? key with
    | none => exact absurd (filed.keys row at_row ▸ own) (findKey?_eq_none_iff.1 found row at_row)
    | some b =>
      obtain ⟨row', at_row', own', rfl⟩ := exists_row_of_findKey? found
      rw [filed.row_unique at_row' at_row own' (filed.keys row at_row ▸ own)]

variable (filed : c.Filed (Program.keys ∘ program))

include filed

theorem holder_clashes {p : Program} {a holder : α} (refused : c.insert p.keys a = .error holder) :
    holder ∈ c.items ∧ p.Clashes (program holder) := by
  unfold Catalog.insert at refused
  split at refused
  · rename_i held
    cases refused
    obtain ⟨key, own, found⟩ := List.exists_of_findSome?_eq_some held
    obtain ⟨mem, taken⟩ := filed.findKey?_eq_some_iff.1 found
    exact ⟨mem, key, own, taken⟩
  · cases refused

theorem refused_iff (p : Program) (a : α) : (∃ holder, c.insert p.keys a = .error holder) ↔
    ∃ b ∈ c.items, p.Clashes (program b) := by
  constructor
  · rintro ⟨holder, refused⟩
    exact ⟨holder, filed.holder_clashes refused⟩
  · rintro ⟨b, mem, key, own, taken⟩
    cases entered : c.insert p.keys a with
    | error holder => exact ⟨holder, rfl⟩
    | ok d =>
      unfold Catalog.insert at entered
      split at entered
      · cases entered
      · rename_i free
        have unknown := List.findSome?_eq_none_iff.1 free key own
        rw [filed.findKey?_eq_some_iff.2 ⟨mem, taken⟩] at unknown
        cases unknown

theorem titled (writable : ∀ a ∈ c.items, (program a).header.Writable) : c.Titled program where
  apart := by
    refine List.pairwise_map.2 (filed.apart.imp_of_mem fun {row row'} mem mem' apart => ?_)
    rintro ⟨key, own, taken⟩
    exact apart key (filed.keys row mem ▸ own) (filed.keys row' mem' ▸ taken)
  refused := filed.refused_iff
  holder _ _ _ := filed.holder_clashes
  found text a := by
    rw [find?, filed.findKey?_eq_some_iff]
    exact and_congr_right fun mem => (Program.isCalled_iff (writable a mem)).symm

end Filed

end Catalog

namespace Functions

/-- Loads functions in order, and enters those that are loaded. -/
def ofDefinitions (definitions : List Definition) : Functions :=
  ofPrograms (definitions.filterMap fun d => (Program.ofDefinition d .function).toOption)

/-- The rows that the functions come with. -/
def rowsOf (definitions : List Definition) : List (List String × Program) :=
  (definitions.filterMap fun d => (Program.ofDefinition d .function).toOption).map fun p =>
    (p.keys, p)

theorem ofDefinitions_eq_fill (definitions : List Definition) :
    ofDefinitions definitions = Catalog.fill (rowsOf definitions) := by
  rw [Catalog.fill, rowsOf, List.foldl_map]
  rfl

theorem exists_ofDefinition_of_mem {definitions : List Definition} :
    ∀ f ∈ (ofDefinitions definitions).items, ∃ d, Program.ofDefinition d .function = .ok f := by
  intro f mem
  obtain ⟨d, -, loaded⟩ := List.mem_filterMap.1 (mem_of_mem_ofPrograms f mem)
  cases given : Program.ofDefinition d .function with
  | error cause =>
    rw [given] at loaded
    cases loaded
  | ok p =>
    rw [given] at loaded
    cases loaded
    exact ⟨d, given⟩

theorem titled_ofDefinitions (definitions : List Definition) :
    (ofDefinitions definitions).Titled id := by
  have filed : (ofDefinitions definitions).Filed (Program.keys ∘ id) := filed_ofPrograms _
  refine filed.titled fun f mem => ?_
  obtain ⟨d, loaded⟩ := exists_ofDefinition_of_mem f mem
  exact Program.header_of_ofDefinition loaded

/-- Functions that come later hide none that are there. -/
theorem extends_ofDefinitions_append (definitions more : List Definition) :
    (ofDefinitions definitions).Extends (ofDefinitions (definitions ++ more)) := by
  unfold ofDefinitions
  rw [List.filterMap_append, ofPrograms, ofPrograms, List.foldl_append]
  generalize (more.filterMap _) = programs
  generalize (definitions.filterMap _).foldl _ _ = functions
  induction programs generalizing functions with
  | nil => exact .refl _
  | cons p rest ih =>
    refine Catalog.Extends.trans ?_ (ih _)
    change functions.Extends ((functions.add p).toOption.getD functions)
    cases added : functions.add p with
    | error holder => exact .refl _
    | ok larger => exact .of_rows (Catalog.rows_insert added)

/-- The two maps behind the table hold what the table holds. -/
theorem holds_fill (definitions : List Definition) :
    (Shelves.fill Shelves.nextNumber (rowsOf definitions)).Holds (ofDefinitions definitions) := by
  rw [ofDefinitions_eq_fill]
  refine Shelves.holds_fill Shelves.fresh_nextNumber fun row mem => ?_
  obtain ⟨p, -, rfl⟩ := List.mem_map.1 mem
  exact p.keys_ne_nil

/-- A function that is refused leaves the table as it was. -/
theorem ofDefinitions_of_refused {definitions : List Definition} {d : Definition}
    {p holder : Program} (loaded : Program.ofDefinition d .function = .ok p)
    (refused : (ofDefinitions definitions).add p = .error holder) :
    ofDefinitions (definitions ++ [d]) = ofDefinitions definitions := by
  have last : [d].filterMap (fun d => (Program.ofDefinition d .function).toOption) = [p] := by
    rw [List.filterMap_cons, loaded]
    rfl
  rw [ofDefinitions, List.filterMap_append, last, ofPrograms, List.foldl_append]
  change ((ofDefinitions definitions).add p).toOption.getD (ofDefinitions definitions) = _
  rw [refused]
  rfl

end Functions

namespace Registry

/-- What is to be registered. -/
def Event.definitions : Event → List Definition
  | .main d => [d]
  | .function d => [d]
  | .bundle b => b.main :: b.functions
  | .degrees _ => []

/-- What is registered has the property. -/
structure Each (P : Program → Prop) (r : Registry) : Prop where
  mains : ∀ c ∈ r.mains.items, P c.program
  functions : ∀ f ∈ r.functions.items, P f

variable {functions larger : Functions} {own : List Program} {p : Program} {d : Definition}
  {definitions : List Definition} {r r' : Registry} {b : Bundle}

theorem Loads.forall_mem {P : Program → Prop}
    (loads : ∀ d ∈ definitions, ∀ role p, Program.ofDefinition d role = .ok p → P p)
    (loaded : Loads definitions own) : ∀ f ∈ own, P f := by
  induction loaded with
  | nil => exact List.forall_mem_nil _
  | cons first _ ih =>
    obtain ⟨given, others⟩ := List.forall_mem_cons.1 loads
    exact List.forall_mem_cons.2 ⟨given _ _ (mapError_eq_ok.1 first), ih others⟩

namespace Each

variable {P : Program → Prop}

theorem withMain (each : r.Each P) (given : P p) (entered : r.withMain p = .ok r'.mains) :
    ∀ c ∈ r'.mains.items, P c.program := by
  have entered : r.mains.insert p.keys { program := p } = .ok r'.mains := mapError_eq_ok.1 entered
  rw [Catalog.items_insert entered]
  exact List.forall_mem_append.2 ⟨each.mains, List.forall_mem_singleton.2 given⟩

theorem withFunctions (each : r.Each P) (given : ∀ f ∈ own, P f)
    (grows : Grows r.functions own r'.functions) : ∀ f ∈ r'.functions.items, P f := by
  rw [grows.items]
  exact List.forall_mem_append.2 ⟨each.functions, given⟩

theorem settle (each : r.Each P) {answer : Except RegistrationError (Program × Registry)}
    (entered : ∀ p r', answer = .ok (p, r') → r'.Each P) : (r.settle answer).Each P := by
  cases answer with
  | error cause => exact each
  | ok given => exact entered given.1 given.2 rfl

theorem after {event : Event} (loads : ∀ d ∈ event.definitions, ∀ role p,
    Program.ofDefinition d role = .ok p → P p) (each : r.Each P) (closed : Closed r.functions) :
    (r.after event).Each P := by
  cases event with
  | main d =>
    have own := List.forall_mem_singleton.1 loads
    rw [Registry.after]
    refine each.settle fun p r' entered => ?_
    obtain ⟨loaded, taken, same, -⟩ := (enterMain_eq_ok_iff closed).1 entered
    exact ⟨each.withMain (own _ _ (mapError_eq_ok.1 loaded)) taken, same ▸ each.functions⟩
  | function d =>
    have own := List.forall_mem_singleton.1 loads
    rw [Registry.after]
    refine each.settle fun p r' entered => ?_
    obtain ⟨loaded, same, grows, -⟩ := (enterFunction_eq_ok_iff closed).1 entered
    have given := List.forall_mem_singleton.2 (own _ _ (mapError_eq_ok.1 loaded))
    exact ⟨same ▸ each.mains, each.withFunctions given grows⟩
  | bundle b =>
    obtain ⟨own, others⟩ := List.forall_mem_cons.1 loads
    rw [Registry.after]
    refine each.settle fun p r' entered => ?_
    obtain ⟨loaded, taken, _, loadedOwn, grows, -⟩ := (enterBundle_eq_ok_iff closed).1 entered
    exact ⟨each.withMain (own _ _ (mapError_eq_ok.1 loaded)) taken,
      each.withFunctions (loadedOwn.forall_mem others) grows⟩
  | degrees name =>
    rw [Registry.after]
    split
    · exact each
    · rename_i c found
      split
      · rename_i e c' expanded
        refine ⟨fun x mem => ?_, each.functions⟩
        obtain rfl | old := Catalog.mem_items_replace mem
        · rw [(Cached.of_expand expanded).1]
          exact each.mains c (Catalog.mem_items_of_findKey? found)
        · exact each.mains x old
      · exact each

/-- What is registered comes from the definitions that were to be registered. -/
theorem foldl_of_mem {events : List Event} (loads : ∀ event ∈ events, ∀ d ∈ event.definitions,
    ∀ role p, Program.ofDefinition d role = .ok p → P p) (each : r.Each P) (sound : r.Sound) :
    (events.foldl Registry.after r).Each P := by
  induction events generalizing r with
  | nil => exact each
  | cons event rest ih =>
    obtain ⟨first, others⟩ := List.forall_mem_cons.1 loads
    exact ih others (each.after first sound.functions) (sound.after event).1

theorem foldl (loads : ∀ d role p, Program.ofDefinition d role = .ok p → P p) (each : r.Each P)
    (sound : r.Sound) (events : List Event) : (events.foldl Registry.after r).Each P :=
  foldl_of_mem (fun _ _ d _ => loads d) each sound

end Each

/-! Names that are taken. -/

/-- After the names only the calls are looked at. -/
theorem eq_load_of_check {roots : List Program} {answer : Program × Registry}
    {cause : RegistrationError}
    (failed : (check functions roots >>= fun _ => pure answer) = .error cause) :
    ∃ refusal, cause = .load refusal := by
  obtain checked | ⟨_, -, eq⟩ := bind_eq_error.1 failed
  · unfold check at checked
    cases answer : CallGraph.check functions roots with
    | error refusal =>
      rw [answer] at checked
      cases checked
      exact ⟨refusal, rfl⟩
    | ok _ =>
      rw [answer] at checked
      cases checked
  · cases eq

theorem withMain_eq_error_iff (filed : r.mains.Filed (Program.keys ∘ Cached.program)) :
    r.withMain p = .error (.duplicateMain p.name) ↔ ∃ c ∈ r.mains.items, p.Clashes c.program := by
  rw [← filed.refused_iff p { program := p }, withMain]
  cases r.mains.insert p.keys { program := p } with
  | error holder => exact ⟨fun _ => ⟨holder, rfl⟩, fun _ => rfl⟩
  | ok mains => exact iff_of_false (fun eq => by cases eq) (by rintro ⟨_, ⟨⟩⟩)

theorem eq_duplicate_of_withMain {cause : RegistrationError}
    (failed : r.withMain p = .error cause) : cause = .duplicateMain p.name := by
  unfold withMain at failed
  cases entered : r.mains.insert p.keys { program := p } with
  | error holder =>
    rw [entered] at failed
    cases failed
    rfl
  | ok mains =>
    rw [entered] at failed
    cases failed

theorem withFunction_eq_error_iff (filed : functions.Filed Program.keys) :
    withFunction functions p = .error (.duplicateFunction p.name) ↔
      ∃ f ∈ functions.items, p.Clashes f := by
  have filed : functions.Filed (Program.keys ∘ id) := filed
  refine Iff.trans ?_ (filed.refused_iff p p)
  rw [withFunction, Functions.add]
  cases functions.insert p.keys p with
  | error holder => exact ⟨fun _ => ⟨holder, rfl⟩, fun _ => rfl⟩
  | ok mains => exact iff_of_false (fun eq => by cases eq) (by rintro ⟨_, ⟨⟩⟩)

/-- A main program is refused as a duplicate exactly if it has a key of one that is there. -/
theorem enterMain_taken_iff (filed : r.mains.Filed (Program.keys ∘ Cached.program))
    (loaded : Program.ofDefinition d .main = .ok p) :
    r.enterMain d = .error (.duplicateMain p.name) ↔
      ∃ c ∈ r.mains.items, p.Clashes c.program := by
  have loaded : load d .main = .ok p := mapError_eq_ok.2 loaded
  rw [← withMain_eq_error_iff filed, enterMain, loaded, ok_bind]
  refine bind_eq_error.trans (or_iff_left ?_)
  rintro ⟨mains, -, failed⟩
  obtain ⟨refusal, eq⟩ := eq_load_of_check failed
  cases eq

/-- A function is refused as a duplicate exactly if it has a key of one that is there. -/
theorem enterFunction_taken_iff (filed : r.functions.Filed Program.keys)
    (loaded : Program.ofDefinition d .function = .ok p) :
    r.enterFunction d = .error (.duplicateFunction p.name) ↔
      ∃ f ∈ r.functions.items, p.Clashes f := by
  have loaded : load d .function = .ok p := mapError_eq_ok.2 loaded
  rw [← withFunction_eq_error_iff filed, enterFunction, loaded, ok_bind]
  refine bind_eq_error.trans (or_iff_left ?_)
  rintro ⟨functions, -, failed⟩
  obtain ⟨refusal, eq⟩ := eq_load_of_check failed
  cases eq

theorem eq_duplicate_of_withFunction {cause : RegistrationError}
    (failed : withFunction functions p = .error cause) : cause = .duplicateFunction p.name := by
  unfold withFunction at failed
  cases added : functions.add p with
  | error holder =>
    rw [added] at failed
    cases failed
    rfl
  | ok larger =>
    rw [added] at failed
    cases failed

theorem eq_duplicate_of_foldlM {cause : RegistrationError}
    (failed : own.foldlM withFunction functions = .error cause) :
    ∃ name, cause = .duplicateFunction name := by
  induction own generalizing functions with
  | nil => cases failed
  | cons p rest ih =>
    rw [List.foldlM_cons] at failed
    obtain first | ⟨larger, -, others⟩ := bind_eq_error.1 failed
    · exact ⟨p.name, eq_duplicate_of_withFunction first⟩
    · exact ih others

/-- Functions with different keys can be entered together if none of them has a key of one that
is there. -/
theorem exists_grows_iff {table : Functions} (filed : functions.Filed Program.keys)
    (apart : table.Filed Program.keys) :
    (∃ larger, Grows functions table.items larger) ↔
      ∀ f ∈ table.items, ∀ g ∈ functions.items, ¬f.Clashes g := by
  have rows : (table.items.map fun p => (p.keys, p)) = table.rows := by
    rw [Catalog.items, List.map_map]
    refine (List.map_congr_left fun row mem => ?_).trans (List.map_id _)
    exact Prod.ext (apart.keys row mem).symm rfl
  constructor
  · rintro ⟨larger, grows⟩ f mem g old ⟨key, own, taken⟩
    have apart := grows.filed.apart
    rw [grows.rows, List.pairwise_append] at apart
    obtain ⟨row, at_row, rfl⟩ := Catalog.exists_row_of_mem old
    rw [← filed.keys row at_row] at taken
    exact apart.2.2 row at_row _ (List.mem_map_of_mem mem) key taken own
  · intro free
    refine ⟨⟨functions.rows ++ table.items.map fun p => (p.keys, p)⟩, ⟨?_, ?_⟩, rfl⟩
    · rw [rows]
      exact List.forall_mem_append.2 ⟨filed.keys, apart.keys⟩
    · rw [rows, List.pairwise_append]
      refine ⟨filed.apart, apart.apart, fun row mem row' mem' key taken own => ?_⟩
      refine free row'.2 (List.mem_map_of_mem mem') row.2 (List.mem_map_of_mem mem) ⟨key, ?_, ?_⟩
      · rwa [← apart.keys row' mem']
      · rwa [← filed.keys row mem]

/-- Functions are refused together exactly if one of them has a key of one that is there. -/
theorem foldlM_withFunction_taken_iff {table : Functions} (filed : functions.Filed Program.keys)
    (apart : table.Filed Program.keys) :
    (∃ name, table.items.foldlM withFunction functions = .error (.duplicateFunction name)) ↔
      ∃ f ∈ table.items, ∃ g ∈ functions.items, f.Clashes g := by
  have free := exists_grows_iff filed apart
  cases entered : table.items.foldlM withFunction functions with
  | ok larger =>
    have grows := free.1 ⟨larger, grows_foldlM filed entered⟩
    refine ⟨(by rintro ⟨_, ⟨⟩⟩), ?_⟩
    rintro ⟨f, mem, g, old, clash⟩
    exact absurd clash (grows f mem g old)
  | error cause =>
    obtain ⟨name, rfl⟩ := eq_duplicate_of_foldlM entered
    refine iff_of_true ⟨name, rfl⟩ ?_
    by_contra none
    push Not at none
    obtain ⟨larger, grows⟩ := free.2 none
    cases entered.symm.trans ((foldlM_eq_ok_iff filed).2 grows)

/-- A bundle is refused as a duplicate if its main program has a key of one that is there, or if
one of its functions has. -/
theorem enterBundle_taken_iff (filed : r.mains.Filed (Program.keys ∘ Cached.program))
    (filed' : r.functions.Filed Program.keys) {table : Functions}
    (loaded : Program.ofDefinition b.main .main = .ok p)
    (loadedOwn : loadFunctions b.functions ∅ = .ok table) :
    (r.enterBundle b = .error (.duplicateMain p.name) ↔
      ∃ c ∈ r.mains.items, p.Clashes c.program) ∧
    ((∃ name, r.enterBundle b = .error (.duplicateFunction name)) ↔
      (¬∃ c ∈ r.mains.items, p.Clashes c.program) ∧
        ∃ f ∈ table.items, ∃ g ∈ r.functions.items, f.Clashes g) := by
  have loaded : load b.main .main = .ok p := mapError_eq_ok.2 loaded
  have apart := (loaded_of_loadFunctions .empty (List.forall_mem_nil _) loadedOwn).1
  have entered (cause : RegistrationError) (other : ∀ refusal, cause ≠ .load refusal) :
      r.enterBundle b = .error cause ↔ r.withMain p = .error cause ∨
        ∃ mains, r.withMain p = .ok mains ∧
          table.items.foldlM withFunction r.functions = .error cause := by
    rw [enterBundle, loaded, ok_bind, loadedOwn, ok_bind]
    refine bind_eq_error.trans (or_congr_right (exists_congr fun mains => and_congr_right ?_))
    intro _
    refine bind_eq_error.trans (or_iff_left ?_)
    rintro ⟨functions, -, failed⟩
    obtain ⟨refusal, eq⟩ := eq_load_of_check failed
    exact other refusal eq
  have main := withMain_eq_error_iff (p := p) filed
  have together := foldlM_withFunction_taken_iff filed' apart
  constructor
  · rw [← main, entered _ fun _ eq => by cases eq]
    refine or_iff_left ?_
    rintro ⟨mains, -, failed⟩
    obtain ⟨name, eq⟩ := eq_duplicate_of_foldlM failed
    cases eq
  · rw [← main, ← together]
    constructor
    · rintro ⟨name, refused⟩
      obtain first | ⟨mains, taken, failed⟩ := (entered _ (fun _ eq => by cases eq)).1 refused
      · cases eq_duplicate_of_withMain first
      · refine ⟨fun refused => ?_, name, failed⟩
        cases taken.symm.trans refused
    · rintro ⟨free, name, failed⟩
      cases taken : r.withMain p with
      | error cause =>
        obtain rfl := eq_duplicate_of_withMain taken
        exact absurd taken free
      | ok mains =>
        exact ⟨name, (entered _ (fun _ eq => by cases eq)).2 (.inr ⟨mains, taken, failed⟩)⟩

/-! Listings. -/

/-- Programs with different display names are listed each once, in strict order. -/
theorem sortedNames_strict {programs : List Program}
    (apart : programs.Pairwise fun p q => ¬p.Clashes q) :
    (sortedNames programs).Perm (programs.map fun p => p.header.displayName) ∧
      (sortedNames programs).Pairwise fun a b => Text.fold a < Text.fold b := by
  let le (a b : String) : Bool := decide (Text.fold a ≤ Text.fold b)
  have perm : (sortedNames programs).Perm (programs.map fun p => p.header.displayName) :=
    List.mergeSort_perm ..
  have sorted : (sortedNames programs).Pairwise fun a b => le a b := by
    refine List.pairwise_mergeSort (fun a b c ab bc => ?_) (fun a b => ?_) _
    · exact decide_eq_true (String.le_trans (of_decide_eq_true ab) (of_decide_eq_true bc))
    · rw [Bool.or_eq_true]
      exact (String.le_total _ _).imp decide_eq_true decide_eq_true
  have different : (sortedNames programs).Pairwise fun a b => Text.fold a ≠ Text.fold b := by
    refine (perm.symm.pairwise_iff fun ne => ne.symm).1 (List.pairwise_map.2 ?_)
    refine apart.imp fun {p q} apart same => apart ?_
    exact ⟨_, p.displayName_mem_keys, same ▸ q.displayName_mem_keys⟩
  refine ⟨perm, (sorted.and different).imp fun {a b} both => ?_⟩
  exact Decidable.not_not.1 fun not =>
    both.2 (String.le_antisymm (of_decide_eq_true both.1) (String.not_lt.1 not))

theorem Each.titled (each : r.Each fun p => p.header.Writable) (sound : r.Sound) :
    r.mains.Titled Cached.program ∧ r.functions.Titled id := by
  have filed : r.functions.Filed (Program.keys ∘ id) := sound.functions.filed
  exact ⟨sound.filed.titled each.mains, filed.titled each.functions⟩

/-- The two maps behind each table of a registry hold what the table holds. -/
theorem Sound.holds_fill (sound : r.Sound) :
    (Shelves.fill Shelves.firstKey r.mains.rows).Holds r.mains ∧
      (Shelves.fill Shelves.firstKey r.functions.rows).Holds r.functions := by
  have mains : (Shelves.fill Shelves.firstKey r.mains.rows).Holds (Catalog.fill r.mains.rows) :=
    Shelves.holds_fill Shelves.fresh_firstKey fun row mem =>
      sound.filed.keys row mem ▸ row.2.program.keys_ne_nil
  have functions : (Shelves.fill Shelves.firstKey r.functions.rows).Holds
      (Catalog.fill r.functions.rows) :=
    Shelves.holds_fill Shelves.fresh_firstKey fun row mem =>
      sound.functions.filed.keys row mem ▸ row.2.keys_ne_nil
  rw [sound.filed.fill_rows] at mains
  rw [sound.functions.filed.fill_rows] at functions
  exact ⟨mains, functions⟩

/-- Main programs and functions are listed by their display names, each once and in order. -/
theorem Each.listed (each : r.Each fun p => p.header.Writable) (sound : r.Sound) :
    (r.listMains.Perm (r.mains.items.map fun c => c.program.header.displayName) ∧
      r.listMains.Pairwise fun a b => Text.fold a < Text.fold b) ∧
    r.listFunctions.Perm (r.functions.items.map fun f => f.header.displayName) ∧
      r.listFunctions.Pairwise fun a b => Text.fold a < Text.fold b := by
  obtain ⟨mains, functions⟩ := each.titled sound
  refine ⟨?_, sortedNames_strict functions.apart⟩
  have listed := sortedNames_strict (List.pairwise_map.2 mains.apart)
  rwa [List.map_map] at listed

/-- In a table that functions are entered into one after the other, and in the tables of a
registry after whatever was registered, no two programs share a key: a name trimmed and folded, or
a display name. A program is refused as a duplicate if and only if a stored one has one of its
keys, and nothing changes then. A stored program is found by both names in any spelling, also
after more has been entered, and what is found is the one program that has the key. The listings
of a registry show the display name of every stored program once, in strict order. The same
answers come from two maps, of which one leads from keys to places and the other one from places
to programs. -/
theorem names_unique_and_permanent (definitions more : List Definition)
    (events later : List Event) :
    let functions := Functions.ofDefinitions definitions
    let r := events.foldl after {}
    let r' := later.foldl after r
    (∀ d role p, Program.ofDefinition d role = .ok p →
      ∀ key, key ∈ p.keys ↔ key = Text.key d.name ∨ key = Text.key d.displayName) ∧
    (functions.Titled id ∧
      (Shelves.fill Shelves.nextNumber (Functions.rowsOf definitions)).Holds functions ∧
      (∀ d p holder, Program.ofDefinition d .function = .ok p → functions.add p = .error holder →
        Functions.ofDefinitions (definitions ++ [d]) = functions) ∧
      ∀ f ∈ functions.items, ∀ text, f.IsCalled text →
        (Functions.ofDefinitions (definitions ++ more)).find? text = some f) ∧
    (r.mains.Titled Cached.program ∧ r.functions.Titled id) ∧
    ((Shelves.fill Shelves.firstKey r.mains.rows).Holds r.mains ∧
      (Shelves.fill Shelves.firstKey r.functions.rows).Holds r.functions) ∧
    (∀ d p, Program.ofDefinition d .main = .ok p →
      (r.enterMain d = .error (.duplicateMain p.name) ↔
        ∃ c ∈ r.mains.items, p.Clashes c.program)) ∧
    (∀ d p, Program.ofDefinition d .function = .ok p →
      (r.enterFunction d = .error (.duplicateFunction p.name) ↔
        ∃ f ∈ r.functions.items, p.Clashes f)) ∧
    (∀ (b : Bundle) p own, Program.ofDefinition b.main .main = .ok p →
      loadFunctions b.functions ∅ = .ok own →
      (r.enterBundle b = .error (.duplicateMain p.name) ↔
        ∃ c ∈ r.mains.items, p.Clashes c.program) ∧
      ((∃ name, r.enterBundle b = .error (.duplicateFunction name)) ↔
        (¬∃ c ∈ r.mains.items, p.Clashes c.program) ∧
          ∃ f ∈ own.items, ∃ g ∈ r.functions.items, f.Clashes g)) ∧
    (∀ enter (engine engine' : Engine) cause,
      (Engine.register enter).run engine = some (.error cause, engine') → engine' = engine) ∧
    (∀ c ∈ r.mains.items, ∀ text, c.program.IsCalled text →
      (r'.find? text).map Cached.program = some c.program) ∧
    (∀ f ∈ r.functions.items, ∀ text, f.IsCalled text → r'.functions.find? text = some f) ∧
    (r.listMains.Perm (r.mains.items.map fun c => c.program.header.displayName) ∧
      r.listMains.Pairwise fun a b => Text.fold a < Text.fold b) ∧
    r.listFunctions.Perm (r.functions.items.map fun f => f.header.displayName) ∧
      r.listFunctions.Pairwise fun a b => Text.fold a < Text.fold b := by
  intro functions r r'
  have sound : r.Sound := (sound_empty.foldl events).1
  have each : r.Each fun p => p.header.Writable :=
    Each.foldl (fun d role p => Program.header_of_ofDefinition)
      ⟨List.forall_mem_nil _, List.forall_mem_nil _⟩ sound_empty events
  have follows : r.Follows r' := (sound.foldl later).2
  have titled := Functions.titled_ofDefinitions definitions
  obtain ⟨mains, registered⟩ := each.titled sound
  refine ⟨fun d role p loaded key => Program.mem_keys_iff_of_ofDefinition loaded,
    ⟨titled, Functions.holds_fill definitions,
      fun d p holder => Functions.ofDefinitions_of_refused, fun f mem text called => ?_⟩,
    ⟨mains, registered⟩, sound.holds_fill, fun d p => enterMain_taken_iff sound.filed,
    fun d p => enterFunction_taken_iff sound.functions.filed,
    fun b p own => enterBundle_taken_iff sound.filed sound.functions.filed,
    fun enter engine engine' cause => Engine.eq_of_register_error, fun c mem text called => ?_,
    fun f mem text called => follows.functions _ _ ((registered.found text f).2 ⟨mem, called⟩),
    each.listed sound⟩
  · exact Functions.extends_ofDefinitions_append definitions more _ _
      ((titled.found text f).2 ⟨mem, called⟩)
  · obtain ⟨c', found, same⟩ := follows.mains _ _ ((mains.found text c).2 ⟨mem, called⟩)
    have found : r'.find? text = some c' := found
    rw [found, Option.map_some, same]

/-- A program without instructions. -/
def blank (name displayName : String) (role : Role) : Program where
  header := ⟨name, displayName, role⟩
  degree := 0
  instructions := #[]
  positions := ∅
  inputs := ∅
  works := ∅
  names := {}

theorem ofDefinition_blank {name displayName : String} (role : Role) (named : Text.trim name ≠ "") :
    Program.ofDefinition ⟨name, some displayName, []⟩ role =
      .ok (blank (Text.trim name) (Text.trim displayName) role) := by
  have again : Text.trim (Text.trim name) ≠ "" := by rwa [Text.trim_trim]
  unfold Program.ofDefinition Program.load
  rw [if_neg again]
  rfl

/-- A function whose name is the display name of one that is there: it is refused, and the name
goes on leading to the function that had it first. -/
theorem names_unique_and_permanent_crossing :
    let first : Definition := ⟨"A", some "second ", []⟩
    let second : Definition := ⟨" Second", some "b", []⟩
    let functions := Functions.ofDefinitions [first]
    Program.ofDefinition second .function = .ok (blank "Second" "b" .function) ∧
      functions.add (blank "Second" "b" .function) = .error (blank "A" "second" .function) ∧
      Functions.ofDefinitions ([first] ++ [second]) = functions ∧
      (Functions.ofDefinitions ([first] ++ [second])).find? " SECOND" =
        some (blank "A" "second" .function) := by
  intro first second functions
  have before : Program.ofDefinition first .function = .ok (blank "A" "second" .function) :=
    ofDefinition_blank .function (by decide +kernel)
  have loaded : Program.ofDefinition second .function = .ok (blank "Second" "b" .function) :=
    ofDefinition_blank .function (by decide +kernel)
  have entered : functions = ⟨[(["a", "second"], blank "A" "second" .function)]⟩ := by
    simp only [functions, Functions.ofDefinitions, List.filterMap_cons, before]
    rfl
  have refused : functions.add (blank "Second" "b" .function) =
      .error (blank "A" "second" .function) := by
    rw [entered]
    rfl
  have found : functions.find? " SECOND" = some (blank "A" "second" .function) := by
    rw [entered]
    rfl
  obtain ⟨-, ⟨titled, -, kept, stays⟩, -⟩ := names_unique_and_permanent [first] [second] [] []
  obtain ⟨mem, called⟩ := (titled.found _ _).1 found
  exact ⟨loaded, refused, kept _ _ _ loaded refused, stays _ mem _ called⟩

end Registry

end SLanguage
