import SLanguage.Proofs.Expansion.Tables
import SLanguage.Registry

/-! What a registry keeps. Every call in it leads to a function of it, in no cycle, and a
function that was registered answers to its names for good. So the degrees of a program that
were worked out once are the ones that would be worked out now. -/

namespace SLanguage

/-- Expanding a program keeps it, with its expansion. -/
theorem Cached.of_expand {functions : Functions} {c c' : Cached} {e : Expansion}
    (expanded : c.expand functions = pure (e, c')) :
    c'.program = c.program ∧ c'.expansion? = some e := by
  unfold expand at expanded
  split at expanded
  · rename_i had
    cases Attempt.pure_injective expanded
    exact ⟨rfl, had⟩
  · obtain ⟨e', -, kept⟩ := Attempt.run_bind_eq_ok.1 (congrArg ExceptT.run expanded)
    cases Attempt.pure_injective kept
    exact ⟨rfl, rfl⟩

namespace Registry

/-- The functions of a registry: they are known by their names, and call only each other,
in no cycle. -/
structure Closed (functions : Functions) : Prop where
  filed : functions.Filed Program.keys
  lowerable : ∀ f ∈ functions.items, f.Lowerable
  role : ∀ f ∈ functions.items, f.header.role = .function
  resolves : ∀ f ∈ functions.items, ∀ name ∈ f.callees, functions.Resolves name

theorem closed_empty : Closed ∅ where
  filed := .empty
  lowerable := List.forall_mem_nil _
  role := List.forall_mem_nil _
  resolves := List.forall_mem_nil _

/-- The second table is the first one with more functions behind it. -/
structure Grows (functions : Functions) (own : List Program) (larger : Functions) : Prop where
  filed : larger.Filed Program.keys
  rows : larger.rows = functions.rows ++ own.map fun p => (p.keys, p)

variable {functions larger : Functions} {own : List Program} {p : Program} {d : Definition}
  {r r' : Registry}

namespace Grows

theorem items (grows : Grows functions own larger) : larger.items = functions.items ++ own := by
  rw [Catalog.items, grows.rows, List.map_append, List.map_map]
  exact congrArg _ (List.map_id own)

theorem grown (grows : Grows functions own larger) : functions.Extends larger :=
  .of_rows grows.rows

/-- Where functions come together, it does not matter in which table a name is looked up
first, since no name is in both. -/
theorem find?_eq {table : Functions} (grows : Grows functions table.items larger)
    (filed : table.Filed Program.keys) (name : String) :
    larger.find? name = (table ++ functions).find? name := by
  have rows : table.items.map (fun p => (p.keys, p)) = table.rows := by
    rw [Catalog.items, List.map_map]
    refine (List.map_congr_left fun row mem => ?_).trans (List.map_id _)
    exact Prod.ext (filed.keys row mem).symm rfl
  have apart := grows.filed.apart
  rw [grows.rows, rows, List.pairwise_append] at apart
  have layered : (table ++ functions).findKey? (Text.key name) =
      (table.findKey? (Text.key name)).or (functions.findKey? (Text.key name)) :=
    Catalog.findKey?_of_rows rfl
  have joined : larger.findKey? (Text.key name) =
      (functions.findKey? (Text.key name)).or (table.findKey? (Text.key name)) :=
    Catalog.findKey?_of_rows (grows.rows.trans (congrArg _ rows))
  rw [Catalog.find?, Catalog.find?, layered, joined]
  cases first : table.findKey? (Text.key name) with
  | none => rw [Option.none_or, Option.or_none]
  | some f =>
    have unknown : functions.findKey? (Text.key name) = none := by
      refine Catalog.findKey?_eq_none_iff.2 fun row mem holds => ?_
      obtain ⟨row', mem', holds', -⟩ := Catalog.exists_row_of_findKey? first
      exact apart.2.2 row mem row' mem' _ holds holds'
    rw [unknown, Option.none_or, Option.some_or]

end Grows

theorem grows_withFunction (filed : functions.Filed Program.keys)
    (entered : withFunction functions p = .ok larger) : Grows functions [p] larger := by
  have entered : functions.insert p.keys p = .ok larger := mapError_eq_ok.1 entered
  exact ⟨filed.insert entered, Catalog.rows_insert entered⟩

theorem grows_foldlM (filed : functions.Filed Program.keys)
    (entered : own.foldlM withFunction functions = .ok larger) : Grows functions own larger := by
  induction own generalizing functions with
  | nil =>
    cases entered
    exact ⟨filed, (List.append_nil _).symm⟩
  | cons p rest ih =>
    rw [List.foldlM_cons] at entered
    obtain ⟨mid, first, others⟩ := bind_eq_ok.1 entered
    have one := grows_withFunction filed first
    have more := ih one.filed others
    refine ⟨more.filed, ?_⟩
    rw [more.rows, one.rows, List.append_assoc]
    rfl

theorem Closed.grows (closed : Closed functions) (grows : Grows functions own larger)
    (loaded : ∀ f ∈ own, f.Lowerable ∧ f.header.role = .function)
    (resolves : ∀ f ∈ own, ∀ name ∈ f.callees, larger.Resolves name) : Closed larger := by
  refine ⟨grows.filed, ?_, ?_, ?_⟩
  · rw [grows.items]
    exact List.forall_mem_append.2 ⟨closed.lowerable, fun f mem => (loaded f mem).1⟩
  · rw [grows.items]
    exact List.forall_mem_append.2 ⟨closed.role, fun f mem => (loaded f mem).2⟩
  · rw [grows.items]
    refine List.forall_mem_append.2 ⟨fun f mem name called => ?_, resolves⟩
    exact (closed.resolves f mem name called).of_extends grows.grown

theorem loaded_of_load {role : Role} (loaded : load d role = .ok p) :
    p.Lowerable ∧ p.header.role = role := by
  have loaded : Program.ofDefinition d role = .ok p := mapError_eq_ok.1 loaded
  exact ⟨Program.lowerable_of_ofDefinition loaded, Program.role_of_ofDefinition loaded⟩

theorem loaded_of_loadFunctions {definitions : List Definition} {start : Functions}
    (filed : start.Filed Program.keys)
    (before : ∀ f ∈ start.items, f.Lowerable ∧ f.header.role = .function)
    (loaded : loadFunctions definitions start = .ok functions) :
    functions.Filed Program.keys ∧
      ∀ f ∈ functions.items, f.Lowerable ∧ f.header.role = .function := by
  induction definitions generalizing start with
  | nil =>
    cases loaded
    exact ⟨filed, before⟩
  | cons d rest ih =>
    rw [loadFunctions] at loaded
    obtain ⟨p, first, others⟩ := bind_eq_ok.1 loaded
    split at others
    · rename_i larger added
      refine ih (filed.insert added) ?_ others
      have items : larger.items = start.items ++ [p] := Catalog.items_insert added
      rw [items]
      exact List.forall_mem_append.2 ⟨before, List.forall_mem_singleton.2 (loaded_of_load first)⟩
    · cases others

theorem apart_main (role : ∀ f ∈ functions.items, f.header.role = .function)
    (main : p.header.role = .main) : CallGraph.Apart functions p := by
  intro f mem same
  have roles : f.header.role = p.header.role := congrArg Prod.fst same
  rw [role f mem, main] at roles
  cases roles

/-- A bundle is entered if its names are free and its calls resolve. They may be looked up in
the functions of the bundle first and then among those of the registry. -/
theorem enterBundle_eq_ok (filed : r.functions.Filed Program.keys) {b : Bundle}
    (entered : r.enterBundle b = .ok (p, r')) :
    ∃ own : Functions, load b.main .main = .ok p ∧ r.withMain p = .ok r'.mains ∧
      (∀ f ∈ own.items, f.Lowerable ∧ f.header.role = .function) ∧
      Grows r.functions own.items r'.functions ∧
      (∀ name, r'.functions.find? name = (own ++ r.functions).find? name) ∧
      CallGraph.check r'.functions (p :: own.items) = .ok () := by
  obtain ⟨p, loaded, entered⟩ := bind_eq_ok.1 entered
  obtain ⟨own, loadedOwn, entered⟩ := bind_eq_ok.1 entered
  obtain ⟨mains, taken, entered⟩ := bind_eq_ok.1 entered
  obtain ⟨larger, added, entered⟩ := bind_eq_ok.1 entered
  obtain ⟨_, checked, entered⟩ := bind_eq_ok.1 entered
  cases entered
  obtain ⟨filedOwn, loadedOwn⟩ := loaded_of_loadFunctions .empty (List.forall_mem_nil _) loadedOwn
  have grows := grows_foldlM filed added
  exact ⟨own, loaded, taken, loadedOwn, grows, grows.find?_eq filedOwn, mapError_eq_ok.1 checked⟩

/-- The main programs can be expanded, and what has been kept of their expansions is what
expanding them gives. -/
structure Sound (r : Registry) : Prop where
  functions : Closed r.functions
  filed : r.mains.Filed (Program.keys ∘ Cached.program)
  ready : ∀ c ∈ r.mains.items, Expansion.Ready r.functions c.program
  kept : ∀ c ∈ r.mains.items, ∀ e, c.expansion? = some e →
    Expansion.ofProgram r.functions c.program = pure e

theorem sound_empty : Sound {} where
  functions := closed_empty
  filed := .empty
  ready := List.forall_mem_nil _
  kept := List.forall_mem_nil _

/-- What a name leads to in the one registry it leads to in the other. -/
structure Follows (r r' : Registry) : Prop where
  functions : r.functions.Extends r'.functions
  mains : ∀ key c, r.mains.findKey? key = some c →
    ∃ c', r'.mains.findKey? key = some c' ∧ c'.program = c.program

theorem Follows.refl (r : Registry) : r.Follows r :=
  ⟨.refl _, fun _ c found => ⟨c, found, rfl⟩⟩

theorem Follows.trans {r'' : Registry} (first : r.Follows r') (second : r'.Follows r'') :
    r.Follows r'' := by
  refine ⟨first.functions.trans second.functions, fun key c found => ?_⟩
  obtain ⟨c', found', same⟩ := first.mains key c found
  obtain ⟨c'', found'', same'⟩ := second.mains key c' found'
  exact ⟨c'', found'', same'.trans same⟩

namespace Sound

/-- More functions change nothing about the programs that are there. -/
theorem withFunctions (sound : r.Sound) (closed : Closed larger)
    (grown : r.functions.Extends larger) : Sound { r with functions := larger } where
  functions := closed
  filed := sound.filed
  ready c mem :=
    ⟨closed.lowerable, (sound.ready c mem).lowerable, fun name called =>
      ((sound.ready c mem).resolves name called).of_extends grown⟩
  kept c mem e expanded := by
    rw [(sound.ready c mem).ofProgram_eq grown]
    exact sound.kept c mem e expanded

theorem withMain (sound : r.Sound) (lowerable : p.Lowerable)
    (resolves : ∀ name ∈ p.callees, r.functions.Resolves name) {mains : Catalog Cached}
    (entered : r.withMain p = .ok mains) :
    Sound { r with mains } ∧ r.Follows { r with mains } := by
  let c : Cached := { program := p }
  have entered : r.mains.insert ((Program.keys ∘ Cached.program) c) c = .ok mains :=
    mapError_eq_ok.1 entered
  have items : mains.items = r.mains.items ++ [c] := Catalog.items_insert entered
  have filed : mains.Filed (Program.keys ∘ Cached.program) := sound.filed.insert entered
  refine ⟨⟨sound.functions, filed, ?_, ?_⟩, .refl _, ?_⟩
  · rw [items]
    exact List.forall_mem_append.2 ⟨sound.ready,
      List.forall_mem_singleton.2 ⟨sound.functions.lowerable, lowerable, resolves⟩⟩
  · rw [items]
    exact List.forall_mem_append.2 ⟨sound.kept,
      List.forall_mem_singleton.2 fun e eq => by cases eq⟩
  · have grown : r.mains.Extends mains := .of_rows (Catalog.rows_insert entered)
    exact fun key c found => ⟨c, grown key c found, rfl⟩

theorem enterMain (sound : r.Sound) (entered : r.enterMain d = .ok (p, r')) :
    r'.Sound ∧ r.Follows r' := by
  obtain ⟨p, loaded, entered⟩ := bind_eq_ok.1 entered
  obtain ⟨mains, taken, entered⟩ := bind_eq_ok.1 entered
  obtain ⟨_, checked, entered⟩ := bind_eq_ok.1 entered
  cases entered
  have checked : CallGraph.check r.functions [p] = .ok () := mapError_eq_ok.1 checked
  exact sound.withMain (loaded_of_load loaded).1
    (CallGraph.resolves_of_check sound.functions.filed checked) taken

theorem enterFunction (sound : r.Sound) (entered : r.enterFunction d = .ok (p, r')) :
    r'.Sound ∧ r.Follows r' := by
  obtain ⟨p, loaded, entered⟩ := bind_eq_ok.1 entered
  obtain ⟨larger, taken, entered⟩ := bind_eq_ok.1 entered
  obtain ⟨_, checked, entered⟩ := bind_eq_ok.1 entered
  cases entered
  have checked : CallGraph.check larger [p] = .ok () := mapError_eq_ok.1 checked
  have grows := grows_withFunction sound.functions.filed taken
  have closed : Closed larger := sound.functions.grows grows
    (List.forall_mem_singleton.2 (loaded_of_load loaded))
    (List.forall_mem_singleton.2 (CallGraph.resolves_of_check grows.filed checked))
  exact ⟨sound.withFunctions closed grows.grown, grows.grown, fun _ c found => ⟨c, found, rfl⟩⟩

theorem enterBundle (sound : r.Sound) {b : Bundle} (entered : r.enterBundle b = .ok (p, r')) :
    r'.Sound ∧ r.Follows r' := by
  obtain ⟨own, loaded, taken, loadedOwn, grows, -, checked⟩ :=
    enterBundle_eq_ok sound.functions.filed entered
  obtain ⟨lowerable, role⟩ := loaded_of_load loaded
  have function : ∀ f ∈ r'.functions.items, f.header.role = .function := by
    rw [grows.items]
    exact List.forall_mem_append.2 ⟨sound.functions.role, fun f mem => (loadedOwn f mem).2⟩
  have inside : ∀ f ∈ own.items, f ∈ r'.functions.items := by
    rw [grows.items]
    exact fun f mem => List.mem_append_right _ mem
  obtain ⟨main, resolves⟩ := List.forall_mem_cons.1
    (CallGraph.resolves_of_check_cons grows.filed (apart_main function role) inside checked)
  have closed : Closed r'.functions := sound.functions.grows grows loadedOwn resolves
  obtain ⟨sound', follows⟩ :=
    (sound.withFunctions closed grows.grown).withMain lowerable main taken
  exact ⟨sound', grows.grown, follows.mains⟩

/-- Looking at the degrees of a program gives what expanding it now gives. -/
theorem expand_eq (sound : r.Sound) {c : Cached} (mem : c ∈ r.mains.items) :
    Prod.fst <$> c.expand r.functions = Expansion.ofProgram r.functions c.program := by
  unfold Cached.expand
  split
  · rename_i e expanded
    rw [sound.kept c mem e expanded]
    rfl
  · rw [map_bind]
    exact bind_pure _

/-- The degrees that have been worked out may be kept. -/
theorem keep (sound : r.Sound) {name : String} {c c' : Cached} {e : Expansion}
    (found : r.find? name = some c) (expanded : c.expand r.functions = pure (e, c')) :
    Sound { r with mains := r.mains.replace name c' } ∧
      r.Follows { r with mains := r.mains.replace name c' } := by
  have mem : c ∈ r.mains.items := Catalog.mem_items_of_findKey? found
  have gives : Expansion.ofProgram r.functions c.program = pure e := by
    rw [← sound.expand_eq mem, expanded]
    rfl
  obtain ⟨program, given⟩ := Cached.of_expand expanded
  refine ⟨⟨sound.functions, sound.filed.replace found (congrArg Program.keys program), ?_, ?_⟩,
    .refl _, ?_⟩
  · intro x inside
    obtain rfl | old := Catalog.mem_items_replace inside
    · rw [program]
      exact sound.ready c mem
    · exact sound.ready x old
  · intro x inside e' has
    obtain rfl | old := Catalog.mem_items_replace inside
    · rw [program, gives, Option.some.inj (given.symm.trans has)]
    · exact sound.kept x old e' has
  · intro key x found'
    obtain here | ⟨here, rfl⟩ := sound.filed.findKey?_replace (b := c') found found'
    · exact ⟨x, here, rfl⟩
    · exact ⟨c', here, program⟩

end Sound

/-- What happens to a registry: a program, a function or a bundle is registered, or the
degrees of a program are asked for. -/
inductive Event where
  | main (d : Definition)
  | function (d : Definition)
  | bundle (b : Bundle)
  | degrees (name : String)

/-- The registry that an answer brings, or the one there was where an error is answered. -/
def settle (r : Registry) : Except RegistrationError (Program × Registry) → Registry
  | .ok (_, r') => r'
  | .error _ => r

def after (r : Registry) : Event → Registry
  | .main d => r.settle (r.enterMain d)
  | .function d => r.settle (r.enterFunction d)
  | .bundle b => r.settle (r.enterBundle b)
  | .degrees name =>
    match r.find? name with
    | none => r
    | some c =>
      match (c.expand r.functions).run with
      | some (.ok (_, c')) => { r with mains := r.mains.replace name c' }
      | _ => r

theorem sound_settle (sound : r.Sound) {answer : Except RegistrationError (Program × Registry)}
    (entered : ∀ p r', answer = .ok (p, r') → r'.Sound ∧ r.Follows r') :
    (r.settle answer).Sound ∧ r.Follows (r.settle answer) := by
  cases answer with
  | error cause => exact ⟨sound, .refl r⟩
  | ok given => exact entered given.1 given.2 rfl

theorem Sound.after (sound : r.Sound) (event : Event) :
    (r.after event).Sound ∧ r.Follows (r.after event) := by
  cases event with
  | main d =>
    rw [Registry.after]
    exact sound_settle sound fun _ _ entered => sound.enterMain entered
  | function d =>
    rw [Registry.after]
    exact sound_settle sound fun _ _ entered => sound.enterFunction entered
  | bundle b =>
    rw [Registry.after]
    exact sound_settle sound fun _ _ entered => sound.enterBundle entered
  | degrees name =>
    rw [Registry.after]
    split
    · exact ⟨sound, .refl r⟩
    · rename_i c found
      split
      · rename_i e c' expanded
        exact sound.keep found expanded
      · exact ⟨sound, .refl r⟩

/-- Whether the degrees of a program have been asked for, the names lead to the same programs. -/
theorem Sound.programs_after_degrees (sound : r.Sound) (asked name : String) :
    ((r.after (.degrees asked)).find? name).map Cached.program =
      (r.find? name).map Cached.program := by
  cases found : r.find? name with
  | some c =>
    obtain ⟨c', found', same⟩ := (sound.after (.degrees asked)).2.mains _ c found
    have found' : (r.after (.degrees asked)).find? name = some c' := found'
    rw [found', Option.map_some, Option.map_some, same]
  | none =>
    have unknown : (r.after (.degrees asked)).find? name = none := by
      rw [Registry.after]
      split
      · exact found
      · split
        · exact Catalog.findKey?_replace_eq_none.2 found
        · exact found
    rw [unknown]

theorem Sound.foldl (sound : r.Sound) (events : List Event) :
    (events.foldl Registry.after r).Sound ∧ r.Follows (events.foldl Registry.after r) := by
  induction events generalizing r with
  | nil => exact ⟨sound, .refl r⟩
  | cons event rest ih =>
    obtain ⟨next, follows⟩ := sound.after event
    obtain ⟨last, follows'⟩ := ih next
    exact ⟨last, follows.trans follows'⟩

/-- Whatever is registered, and in whatever order, the calls of a registered program lead to
registered functions, at any depth of their arguments, and no function is reached from itself.
A name that leads to a program leads to the same one later on, and a look at the degrees of
a main program gives what expanding it gives now, whenever they were worked out first. -/
theorem closed_and_acyclic (events later : List Event) :
    let r := events.foldl after {}
    let r' := later.foldl after r
    (∀ p, p ∈ r.functions.items ∨ (∃ c ∈ r.mains.items, c.program = p) →
      ∀ i ∈ p.instructions.toList, ∀ name, i.Calls name →
        ∃ f, r.functions.find? name = some f) ∧
    (∀ f ∈ r.functions.items, ¬ Relation.TransGen r.functions.Calls f f) ∧
    (∀ name f, r.functions.find? name = some f → r'.functions.find? name = some f) ∧
    (∀ name c, r.find? name = some c →
      ∃ c', r'.find? name = some c' ∧ c'.program = c.program) ∧
    (∀ c ∈ r.mains.items,
      Prod.fst <$> c.expand r.functions = Expansion.ofProgram r.functions c.program ∧
      Expansion.ofProgram r'.functions c.program = Expansion.ofProgram r.functions c.program) := by
  intro r r'
  obtain ⟨sound, -⟩ := sound_empty.foldl events
  obtain ⟨-, follows⟩ := sound.foldl later
  refine ⟨?_, fun f mem => Functions.acyclic_of_callees (sound.functions.resolves f mem),
    fun name => follows.functions _, fun name => follows.mains _, fun c mem => ?_⟩
  · intro p registered i mem name calls
    have called : name ∈ p.callees := Program.mem_callees.2 ⟨i, mem, calls⟩
    obtain function | ⟨c, main, rfl⟩ := registered
    · exact (sound.functions.resolves p function name called).exists_find?
    · exact ((sound.ready c main).resolves name called).exists_find?
  · exact ⟨sound.expand_eq mem, (sound.ready c mem).ofProgram_eq follows.functions⟩

end Registry

end SLanguage
