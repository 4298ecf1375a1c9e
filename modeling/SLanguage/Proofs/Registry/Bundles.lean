import Mathlib.Data.List.Perm.Basic
import SLanguage.Proofs.Engine.Actions

/-! Bundles and registration one by one. A bundle is entered at once exactly if its functions
can be entered one after the other, each after the functions it calls, and the main program
after them. Both ways lead to registries that answer alike, and a bundle that is refused
leaves the registry as it was. -/

namespace SLanguage

namespace Registry

/-- Registers functions one after the other, and a main program after them. -/
def enterEach (r : Registry) (functions : List Definition) (main : Definition) :
    Except RegistrationError (Program × Registry) := do
  let r ← functions.foldlM (fun r d => Prod.snd <$> r.enterFunction d) r
  r.enterMain main

/-- Two registries that cannot be told apart by looking names up or listing them. -/
structure Alike (r r' : Registry) : Prop where
  main : ∀ name, r.find? name = r'.find? name
  function : ∀ name, r.functions.find? name = r'.functions.find? name
  listMains : r.listMains = r'.listMains
  listFunctions : r.listFunctions = r'.listFunctions

variable {functions mid larger larger' : Functions} {own own' : List Program} {p q : Program}
  {d : Definition} {definitions order : List Definition} {r r' r'' : Registry} {b : Bundle}

/-- The name leads to a function of the table. -/
def Known (functions : Functions) (name : String) : Prop :=
  ∃ f, functions.find? name = some f

theorem Closed.resolves_of_known (closed : Closed functions) {name : String}
    (known : Known functions name) : functions.Resolves name := by
  obtain ⟨f, found⟩ := known
  exact .intro found (closed.resolves f (Functions.mem_items_of_find? found))

/-! More functions behind a table. -/

namespace Grows

theorem nil (filed : functions.Filed Program.keys) : Grows functions [] functions :=
  ⟨filed, (List.append_nil _).symm⟩

theorem unique (grows : Grows functions own larger) (grows' : Grows functions own larger') :
    larger = larger' :=
  congrArg Catalog.mk (grows.rows.trans grows'.rows.symm)

theorem trans (first : Grows functions own mid) (second : Grows mid own' larger) :
    Grows functions (own ++ own') larger := by
  refine ⟨second.filed, ?_⟩
  rw [second.rows, first.rows, List.map_append, List.append_assoc]

/-- The order in which functions come changes the order of the rows only. -/
theorem perm (grows : Grows functions own larger) (grows' : Grows functions own' larger')
    (perm : own.Perm own') : larger.rows.Perm larger'.rows := by
  rw [grows.rows, grows'.rows]
  exact (perm.map _).append_left _

theorem exists_perm (grows : Grows functions own larger) (perm : own.Perm own') :
    ∃ larger', Grows functions own' larger' := by
  have rows : larger.rows.Perm (functions.rows ++ own'.map fun p => (p.keys, p)) := by
    rw [grows.rows]
    exact (perm.map _).append_left _
  exact ⟨⟨_⟩, grows.filed.of_perm rows, rfl⟩

/-- The first of the functions comes before the others. -/
theorem exists_cons (grows : Grows functions (p :: own) larger) :
    ∃ mid, Grows functions [p] mid ∧ Grows mid own larger := by
  have rows : larger.rows = (functions.rows ++ [(p.keys, p)]) ++ own.map fun p => (p.keys, p) := by
    rw [grows.rows, List.append_assoc]
    rfl
  have filed : Catalog.Filed Program.keys ⟨larger.rows⟩ := grows.filed
  rw [rows] at filed
  exact ⟨⟨_⟩, ⟨filed.of_append, rfl⟩, grows.filed, rows⟩

theorem add_eq_ok (grows : Grows functions [p] larger) : functions.add p = .ok larger := by
  obtain rfl : larger = ⟨functions.rows ++ [(p.keys, p)]⟩ := congrArg Catalog.mk grows.rows
  exact grows.filed.insert_eq_ok

theorem mem (grows : Grows functions own larger) (mem : p ∈ own) : p ∈ larger.items := by
  rw [grows.items]
  exact List.mem_append_right _ mem

/-- What is found in the end was found before or is one of the functions that came. -/
theorem known_or_mem (grows : Grows functions own larger) {name : String}
    (found : larger.find? name = some p) : Known functions name ∨ p ∈ own := by
  have layered : larger.find? name = (functions.find? name).or _ :=
    Catalog.findKey?_of_rows (d := ⟨_⟩) grows.rows
  cases before : functions.find? name with
  | some f => exact .inl ⟨f, before⟩
  | none =>
    rw [before, Option.none_or, found] at layered
    obtain ⟨row, mem, -, rfl⟩ := Catalog.exists_row_of_findKey? layered.symm
    obtain ⟨f, inside, rfl⟩ := List.mem_map.1 mem
    exact .inr inside

/-- The functions that came do so in an empty table as well. -/
theorem alone (grows : Grows functions own larger) : ∃ table, Grows ∅ own table := by
  have rows : larger.rows.Perm ((own.map fun p => (p.keys, p)) ++ functions.rows) := by
    rw [grows.rows]
    exact List.perm_append_comm
  have filed : Catalog.Filed Program.keys ⟨_⟩ := grows.filed.of_perm (d := ⟨_⟩) rows
  exact ⟨⟨_⟩, filed.of_append, (List.nil_append _).symm⟩

end Grows

theorem withFunction_eq_ok_iff (filed : functions.Filed Program.keys) :
    withFunction functions p = .ok larger ↔ Grows functions [p] larger :=
  ⟨grows_withFunction filed, fun grows => mapError_eq_ok.2 grows.add_eq_ok⟩

theorem foldlM_eq_ok_iff (filed : functions.Filed Program.keys) :
    own.foldlM withFunction functions = .ok larger ↔ Grows functions own larger := by
  refine ⟨grows_foldlM filed, fun grows => ?_⟩
  induction own generalizing functions with
  | nil => rw [grows.unique (.nil filed)]; rfl
  | cons p rest ih =>
    obtain ⟨mid, first, others⟩ := grows.exists_cons
    rw [List.foldlM_cons]
    exact bind_eq_ok.2 ⟨mid, (withFunction_eq_ok_iff filed).2 first, ih first.filed others⟩

/-- The definitions, one for one, are those of the functions. -/
abbrev Loads (definitions : List Definition) (own : List Program) : Prop :=
  List.Forall₂ (fun d p => load d .function = .ok p) definitions own

theorem Loads.loaded (loads : Loads definitions own) :
    ∀ f ∈ own, f.Lowerable ∧ f.header.role = .function := by
  induction loads with
  | nil => exact List.forall_mem_nil _
  | cons first _ ih => exact List.forall_mem_cons.2 ⟨loaded_of_load first, ih⟩

theorem loadFunctions_eq_ok_iff (filed : functions.Filed Program.keys) :
    loadFunctions definitions functions = .ok larger ↔
      ∃ own, Loads definitions own ∧ Grows functions own larger := by
  induction definitions generalizing functions with
  | nil =>
    constructor
    · rintro ⟨⟩
      exact ⟨[], .nil, .nil filed⟩
    · rintro ⟨own, ⟨⟩, grows⟩
      rw [grows.unique (.nil filed)]
      rfl
  | cons d rest ih =>
    rw [loadFunctions, bind_eq_ok]
    constructor
    · rintro ⟨p, first, others⟩
      split at others
      · rename_i mid added
        have grows : Grows functions [p] mid :=
          ⟨filed.insert added, Catalog.rows_insert added⟩
        obtain ⟨own, loads, more⟩ := (ih grows.filed).1 others
        exact ⟨p :: own, .cons first loads, grows.trans more⟩
      · cases others
    · rintro ⟨_, loads, grows⟩
      obtain ⟨p, own, first, others, rfl⟩ := List.forall₂_cons_left_iff.1 loads
      obtain ⟨mid, one, more⟩ := grows.exists_cons
      refine ⟨p, first, ?_⟩
      rw [one.add_eq_ok]
      exact (ih one.filed).2 ⟨own, others, more⟩

/-! One registration at a time. -/

/-- A main program is entered if its name is free and the functions it calls are there. -/
theorem enterMain_eq_ok_iff (closed : Closed r.functions) :
    r.enterMain d = .ok (p, r') ↔ load d .main = .ok p ∧ r.withMain p = .ok r'.mains ∧
      r'.functions = r.functions ∧ ∀ name ∈ p.callees, Known r.functions name := by
  constructor
  · intro entered
    obtain ⟨p, loaded, entered⟩ := bind_eq_ok.1 entered
    obtain ⟨mains, taken, entered⟩ := bind_eq_ok.1 entered
    obtain ⟨_, checked, entered⟩ := bind_eq_ok.1 entered
    cases entered
    have resolves := CallGraph.resolves_of_check closed.filed (mapError_eq_ok.1 checked)
    exact ⟨loaded, taken, rfl, fun name called => (resolves name called).exists_find?⟩
  · rintro ⟨loaded, taken, same, known⟩
    have apart := apart_main closed.role (loaded_of_load loaded).2
    have checked : CallGraph.check r.functions [p] = .ok () :=
      CallGraph.checkFrom_eq_ok closed.filed (List.forall_mem_singleton.2 apart)
        (List.forall_mem_singleton.2 fun name called =>
          closed.resolves_of_known (known name called))
    refine bind_eq_ok.2 ⟨p, loaded, bind_eq_ok.2 ⟨r'.mains, taken, bind_eq_ok.2 ⟨(), ?_, ?_⟩⟩⟩
    · exact mapError_eq_ok.2 checked
    · rw [← same]
      rfl

/-- A function that calls only names that resolve does not call itself. So what it calls is
in the table without it. -/
theorem known_of_grows (grows : Grows functions [p] larger)
    (resolves : ∀ name ∈ p.callees, larger.Resolves name) :
    ∀ name ∈ p.callees, Known functions name := by
  intro name called
  obtain ⟨f, found⟩ := (resolves name called).exists_find?
  obtain before | mem := grows.known_or_mem found
  · exact before
  · obtain rfl := List.mem_singleton.1 mem
    exact absurd (.single ⟨name, called, found⟩) (Functions.acyclic_of_callees resolves)

theorem Closed.grows_one (closed : Closed functions) (grows : Grows functions [p] larger)
    (loaded : p.Lowerable ∧ p.header.role = .function)
    (known : ∀ name ∈ p.callees, Known functions name) : Closed larger := by
  refine closed.grows grows (List.forall_mem_singleton.2 loaded)
    (List.forall_mem_singleton.2 fun name called => ?_)
  exact (closed.resolves_of_known (known name called)).of_extends grows.grown

/-- A function is entered if its names are free and the functions it calls are there. -/
theorem enterFunction_eq_ok_iff (closed : Closed r.functions) :
    r.enterFunction d = .ok (p, r') ↔ load d .function = .ok p ∧ r'.mains = r.mains ∧
      Grows r.functions [p] r'.functions ∧ ∀ name ∈ p.callees, Known r.functions name := by
  constructor
  · intro entered
    obtain ⟨p, loaded, entered⟩ := bind_eq_ok.1 entered
    obtain ⟨larger, taken, entered⟩ := bind_eq_ok.1 entered
    obtain ⟨_, checked, entered⟩ := bind_eq_ok.1 entered
    cases entered
    have grows := grows_withFunction closed.filed taken
    exact ⟨loaded, rfl, grows, known_of_grows grows
      (CallGraph.resolves_of_check grows.filed (mapError_eq_ok.1 checked))⟩
  · rintro ⟨loaded, same, grows, known⟩
    have closed' := closed.grows_one grows (loaded_of_load loaded) known
    have inside : p ∈ r'.functions.items := by
      rw [grows.items]
      exact List.mem_append_right _ (List.mem_singleton.2 rfl)
    have checked : CallGraph.check r'.functions [p] = .ok () :=
      CallGraph.checkFrom_eq_ok grows.filed
        (List.forall_mem_singleton.2 (CallGraph.apart_of_mem grows.filed inside))
        (List.forall_mem_singleton.2 (closed'.resolves p inside))
    refine bind_eq_ok.2 ⟨p, loaded, bind_eq_ok.2
      ⟨r'.functions, (withFunction_eq_ok_iff closed.filed).2 grows,
        bind_eq_ok.2 ⟨(), mapError_eq_ok.2 checked, ?_⟩⟩⟩
    rw [← same]
    rfl

/-- Functions join a table one after the other, each when all that it calls is there. -/
inductive Joins : Functions → List Program → Functions → Prop where
  | nil {functions : Functions} : Joins functions [] functions
  | cons {functions mid larger : Functions} {p : Program} {rest : List Program}
      (known : ∀ name ∈ p.callees, Known functions name) (grows : Grows functions [p] mid)
      (others : Joins mid rest larger) : Joins functions (p :: rest) larger

theorem Joins.grows (joins : Joins functions own larger) (filed : functions.Filed Program.keys) :
    Grows functions own larger := by
  induction joins with
  | nil => exact .nil filed
  | cons _ grows _ ih => exact grows.trans (ih grows.filed)

theorem Joins.closed (joins : Joins functions own larger) (closed : Closed functions)
    (loaded : ∀ f ∈ own, f.Lowerable ∧ f.header.role = .function) : Closed larger := by
  induction joins with
  | nil => exact closed
  | cons known grows _ ih =>
    obtain ⟨first, others⟩ := List.forall_mem_cons.1 loaded
    exact ih (closed.grows_one grows first known) others

theorem enterFunctions_eq_ok_iff (closed : Closed r.functions) :
    order.foldlM (fun r d => Prod.snd <$> r.enterFunction d) r = .ok r' ↔
      r'.mains = r.mains ∧ ∃ own, Loads order own ∧ Joins r.functions own r'.functions := by
  induction order generalizing r with
  | nil =>
    constructor
    · rintro ⟨⟩
      exact ⟨rfl, [], .nil, .nil⟩
    · obtain ⟨mains, functions⟩ := r'
      rintro ⟨rfl, own, ⟨⟩, ⟨⟩⟩
      rfl
  | cons d rest ih =>
    rw [List.foldlM_cons, bind_eq_ok]
    constructor
    · rintro ⟨mid, first, others⟩
      obtain ⟨⟨p, mid⟩, entered, rfl⟩ := map_eq_ok.1 first
      obtain ⟨loaded, same, grows, known⟩ := (enterFunction_eq_ok_iff closed).1 entered
      have closed' := closed.grows_one grows (loaded_of_load loaded) known
      obtain ⟨same', own, loads, joins⟩ := (ih closed').1 others
      exact ⟨same'.trans same, p :: own, .cons loaded loads, .cons known grows joins⟩
    · rintro ⟨same, _, loads, joins⟩
      obtain ⟨p, own, loaded, others, rfl⟩ := List.forall₂_cons_left_iff.1 loads
      obtain _ | ⟨known, grows, joins⟩ := joins
      rename_i mid
      have closed' := closed.grows_one grows (loaded_of_load loaded) known
      have first : r.enterFunction d = .ok (p, { r with functions := mid }) :=
        (enterFunction_eq_ok_iff closed).2 ⟨loaded, rfl, grows, known⟩
      exact ⟨{ r with functions := mid }, map_eq_ok.2 ⟨_, first, rfl⟩,
        (ih closed').2 ⟨same, own, others, joins⟩⟩

theorem enterEach_eq_ok_iff (closed : Closed r.functions) :
    r.enterEach order d = .ok (p, r') ↔ load d .main = .ok p ∧ r.withMain p = .ok r'.mains ∧
      ∃ own, Loads order own ∧ Joins r.functions own r'.functions ∧
        ∀ name ∈ p.callees, Known r'.functions name := by
  rw [enterEach, bind_eq_ok]
  constructor
  · rintro ⟨mid, entered, main⟩
    obtain ⟨same, own, loads, joins⟩ := (enterFunctions_eq_ok_iff closed).1 entered
    obtain ⟨loaded, taken, kept, known⟩ :=
      (enterMain_eq_ok_iff (joins.closed closed loads.loaded)).1 main
    rw [withMain, same] at taken
    rw [← kept] at joins known
    exact ⟨loaded, taken, own, loads, joins, known⟩
  · rintro ⟨loaded, taken, own, loads, joins, known⟩
    refine ⟨{ r with functions := r'.functions },
      (enterFunctions_eq_ok_iff closed).2 ⟨rfl, own, loads, joins⟩, ?_⟩
    exact (enterMain_eq_ok_iff (r := { r with functions := r'.functions })
      (joins.closed closed loads.loaded)).2 ⟨loaded, taken, rfl, known⟩

/-! Bundles. -/

/-- A bundle is entered if its names are free and every call of it leads to functions, in no
cycle, once its own functions are there. -/
theorem enterBundle_eq_ok_iff (closed : Closed r.functions) :
    r.enterBundle b = .ok (p, r') ↔ load b.main .main = .ok p ∧ r.withMain p = .ok r'.mains ∧
      ∃ own, Loads b.functions own ∧ Grows r.functions own r'.functions ∧
        ∀ q ∈ p :: own, ∀ name ∈ q.callees, r'.functions.Resolves name := by
  constructor
  · intro entered
    obtain ⟨p, loaded, entered⟩ := bind_eq_ok.1 entered
    obtain ⟨table, loadedOwn, entered⟩ := bind_eq_ok.1 entered
    obtain ⟨mains, taken, entered⟩ := bind_eq_ok.1 entered
    obtain ⟨larger, added, entered⟩ := bind_eq_ok.1 entered
    obtain ⟨_, checked, entered⟩ := bind_eq_ok.1 entered
    cases entered
    obtain ⟨own, loads, alone⟩ := (loadFunctions_eq_ok_iff .empty).1 loadedOwn
    obtain rfl : table.items = own := alone.items
    have grows := grows_foldlM closed.filed added
    have role : ∀ f ∈ larger.items, f.header.role = .function := by
      rw [grows.items]
      exact List.forall_mem_append.2 ⟨closed.role, fun f mem => (loads.loaded f mem).2⟩
    have inside : ∀ f ∈ table.items, f ∈ larger.items := by
      rw [grows.items]
      exact fun f mem => List.mem_append_right _ mem
    exact ⟨loaded, taken, table.items, loads, grows, CallGraph.resolves_of_check_cons grows.filed
      (apart_main role (loaded_of_load loaded).2) inside (mapError_eq_ok.1 checked)⟩
  · rintro ⟨loaded, taken, own, loads, grows, resolves⟩
    obtain ⟨table, alone⟩ := grows.alone
    obtain rfl : table.items = own := alone.items
    have loadedOwn := (loadFunctions_eq_ok_iff .empty).2 ⟨_, loads, alone⟩
    have added := (foldlM_eq_ok_iff closed.filed).2 grows
    have role : ∀ f ∈ r'.functions.items, f.header.role = .function := by
      rw [grows.items]
      exact List.forall_mem_append.2 ⟨closed.role, fun f mem => (loads.loaded f mem).2⟩
    have apart : ∀ q ∈ p :: table.items, CallGraph.Apart r'.functions q := by
      refine List.forall_mem_cons.2 ⟨apart_main role (loaded_of_load loaded).2, fun f mem => ?_⟩
      exact CallGraph.apart_of_mem grows.filed (grows.mem mem)
    have checked : CallGraph.check r'.functions (p :: table.items) = .ok () :=
      CallGraph.checkFrom_eq_ok grows.filed apart resolves
    exact bind_eq_ok.2 ⟨p, loaded, bind_eq_ok.2 ⟨table, loadedOwn, bind_eq_ok.2 ⟨r'.mains, taken,
      bind_eq_ok.2 ⟨r'.functions, added, bind_eq_ok.2 ⟨(), mapError_eq_ok.2 checked, rfl⟩⟩⟩⟩⟩

/-- Among functions that join a table there is one that calls only what is there already,
if a name that is not there resolves in the end. -/
theorem exists_ready (grows : Grows functions own larger) {name : String}
    (resolves : larger.Resolves name) :
    Known functions name ∨ ∃ q ∈ own, ∀ inner ∈ q.callees, Known functions inner := by
  induction resolves with
  | @intro name f found callees ih =>
    by_cases all : ∀ inner ∈ f.callees, Known functions inner
    · obtain before | mem := grows.known_or_mem found
      · exact .inl before
      · exact .inr ⟨f, mem, all⟩
    · push Not at all
      obtain ⟨inner, called, unknown⟩ := all
      exact .inr ((ih inner called).resolve_left unknown)

/-- Functions whose calls resolve in the end can join a table one after the other. -/
theorem exists_joins (closed : Closed functions) (grows : Grows functions own larger)
    (loaded : ∀ f ∈ own, f.Lowerable ∧ f.header.role = .function)
    (resolves : ∀ f ∈ own, ∀ name ∈ f.callees, larger.Resolves name) :
    ∃ order larger', order.Perm own ∧ Joins functions order larger' := by
  induction size : own.length generalizing functions own larger with
  | zero =>
    obtain rfl := List.length_eq_zero_iff.1 size
    exact ⟨[], functions, .nil, .nil⟩
  | succ n ih =>
    obtain ⟨q, mem, ready⟩ : ∃ q ∈ own, ∀ inner ∈ q.callees, Known functions inner := by
      obtain ⟨f, inside⟩ := List.exists_mem_of_length_pos (l := own) (by omega)
      by_cases all : ∀ inner ∈ f.callees, Known functions inner
      · exact ⟨f, inside, all⟩
      · push Not at all
        obtain ⟨inner, called, unknown⟩ := all
        exact (exists_ready grows (resolves f inside inner called)).resolve_left unknown
    obtain ⟨before, later, rfl⟩ := List.append_of_mem mem
    have moved : (before ++ q :: later).Perm (q :: (before ++ later)) := List.perm_middle
    obtain ⟨larger', grows'⟩ := grows.exists_perm moved
    obtain ⟨mid, first, others⟩ := grows'.exists_cons
    have rest : ∀ f ∈ before ++ later, f ∈ before ++ q :: later :=
      fun f mem => moved.mem_iff.2 (List.mem_cons_of_mem _ mem)
    have grown : larger.Extends larger' := grows.filed.extends_of_perm (grows.perm grows' moved)
    obtain ⟨order, last, permuted, joins⟩ := ih (closed.grows_one first (loaded q mem) ready) others
      (fun f mem => loaded f (rest f mem))
      (fun f mem name called => (resolves f (rest f mem) name called).of_extends grown)
      (Nat.succ.inj (moved.length_eq.symm.trans size))
    exact ⟨q :: order, last, (permuted.cons q).trans moved.symm, .cons ready first joins⟩

/-- The names of programs are listed alike in whatever order the programs come. -/
theorem sortedNames_perm {programs programs' : List Program} (perm : programs.Perm programs')
    (apart : ∀ p ∈ programs, ∀ q ∈ programs,
      Text.fold p.header.displayName = Text.fold q.header.displayName → p = q) :
    sortedNames programs = sortedNames programs' := by
  unfold sortedNames
  set names := programs.map fun p => p.header.displayName
  set names' := programs'.map fun p => p.header.displayName
  let le (a b : String) : Bool := decide (Text.fold a ≤ Text.fold b)
  have trans (a b c : String) (ab : le a b = true) (bc : le b c = true) : le a c = true :=
    decide_eq_true (String.le_trans (of_decide_eq_true ab) (of_decide_eq_true bc))
  have total (a b : String) : (le a b || le b a) = true := by
    rw [Bool.or_eq_true]
    exact (String.le_total _ _).imp decide_eq_true decide_eq_true
  have sorted (l : List String) := List.pairwise_mergeSort trans total l
  have same : (names.mergeSort le).Perm (names'.mergeSort le) :=
    (List.mergeSort_perm ..).trans ((perm.map _).trans (List.mergeSort_perm ..).symm)
  refine List.Perm.eq_of_pairwise ?_ (sorted names) (sorted names') same
  intro a b mem mem' ab ba
  have mem := (List.mergeSort_perm ..).mem_iff.1 mem
  have mem' := (List.mergeSort_perm ..).mem_iff.1 (same.mem_iff.2 mem')
  obtain ⟨p, inside, rfl⟩ := List.mem_map.1 mem
  obtain ⟨q, inside', rfl⟩ := List.mem_map.1 mem'
  rw [apart p inside q inside' (String.le_antisymm (of_decide_eq_true ab) (of_decide_eq_true ba))]

/-- Tables with the same rows, and the same main programs, answer alike. -/
theorem alike_of_perm (filed : r.functions.Filed Program.keys) (mains : r.mains = r'.mains)
    (perm : r.functions.rows.Perm r'.functions.rows) : r.Alike r' where
  main name := by rw [find?, find?, mains]
  function name := (filed.findKey?_of_perm perm).symm
  listMains := by rw [listMains, listMains, mains]
  listFunctions := by
    refine sortedNames_perm (perm.map _) fun p mem q mem' same => ?_
    exact filed.eq_of_key mem mem' p.displayName_mem_keys (same ▸ q.displayName_mem_keys)

/-- The order in which definitions are loaded is that of the functions. -/
theorem Loads.exists_perm (loads : Loads definitions own) (perm : own'.Perm own) :
    ∃ order, order.Perm definitions ∧ Loads order own' := by
  have joined : Relation.Comp (List.Forall₂ _) List.Perm definitions own' := ⟨own, loads, perm.symm⟩
  rw [List.forall₂_comp_perm_eq_perm_comp_forall₂] at joined
  obtain ⟨order, permuted, loads'⟩ := joined
  exact ⟨order, permuted.symm, loads'⟩

theorem Loads.perm (loads : Loads definitions own) (loads' : Loads order own')
    (perm : definitions.Perm order) : own.Perm own' := by
  refine List.rel_perm_imp (fun d p q first second => ?_) loads loads' perm
  exact Except.ok.inj (first.symm.trans second)

section Entering

variable (closed : Closed r.functions)

include closed

/-- What is entered at once can be entered one by one, in some order. -/
theorem exists_enterEach (entered : r.enterBundle b = .ok (p, r')) :
    ∃ order, order.Perm b.functions ∧ ∃ p r', r.enterEach order b.main = .ok (p, r') := by
  obtain ⟨loaded, taken, own, loads, grows, resolves⟩ := (enterBundle_eq_ok_iff closed).1 entered
  obtain ⟨main, resolves⟩ := List.forall_mem_cons.1 resolves
  obtain ⟨own', larger, perm, joins⟩ := exists_joins closed grows loads.loaded resolves
  obtain ⟨order, permuted, loads'⟩ := loads.exists_perm perm
  have same := grows.perm (joins.grows closed.filed) perm.symm
  refine ⟨order, permuted, p, { r' with functions := larger }, ?_⟩
  refine (enterEach_eq_ok_iff closed).2 ⟨loaded, taken, own', loads', joins, fun name called => ?_⟩
  exact ((main name called).of_extends (grows.filed.extends_of_perm same)).exists_find?

/-- What is entered one by one can be entered at once. -/
theorem exists_enterBundle (perm : order.Perm b.functions)
    (entered : r.enterEach order b.main = .ok (p, r')) :
    ∃ p r', r.enterBundle b = .ok (p, r') := by
  obtain ⟨loaded, taken, own', loads', joins, known⟩ := (enterEach_eq_ok_iff closed).1 entered
  have closed' := joins.closed closed loads'.loaded
  have resolves : ∀ q ∈ p :: own', ∀ name ∈ q.callees, r'.functions.Resolves name :=
    List.forall_mem_cons.2 ⟨fun name called => closed'.resolves_of_known (known name called),
      fun f mem => closed'.resolves f ((joins.grows closed.filed).mem mem)⟩
  obtain ⟨own, loads, moved⟩ := List.perm_comp_forall₂ perm.symm loads'
  obtain ⟨larger, grows⟩ := (joins.grows closed.filed).exists_perm moved.symm
  have grown := closed'.filed.extends_of_perm ((joins.grows closed.filed).perm grows moved.symm)
  refine ⟨p, { r' with functions := larger }, (enterBundle_eq_ok_iff closed).2
    ⟨loaded, taken, own, loads, grows, fun q mem name called => ?_⟩⟩
  have mem : q ∈ p :: own' := (moved.cons p).mem_iff.1 mem
  exact (resolves q mem name called).of_extends grown

/-- Both ways give the same program, and registries that answer alike. -/
theorem alike_of_entered (perm : order.Perm b.functions)
    (atOnce : r.enterBundle b = .ok (p, r')) (each : r.enterEach order b.main = .ok (q, r'')) :
    p = q ∧ r'.Alike r'' := by
  obtain ⟨loaded, taken, own, loads, grows, -⟩ := (enterBundle_eq_ok_iff closed).1 atOnce
  obtain ⟨loaded', taken', own', loads', joins, -⟩ := (enterEach_eq_ok_iff closed).1 each
  obtain rfl := Except.ok.inj (loaded.symm.trans loaded')
  have mains := Except.ok.inj (taken.symm.trans taken')
  have moved := loads.perm loads' perm.symm
  exact ⟨rfl, alike_of_perm grows.filed mains (grows.perm (joins.grows closed.filed) moved)⟩

end Entering

/-- In whatever state a registry is, a bundle can be entered if and only if its functions can
be registered one after the other, in some order, and its main program after them. Whatever
that order is, the registry is then found to hold the same under all names and in all
listings. Where the bundle is refused, the engine is left as it was, with its registry. -/
theorem enterBundle_eq_enterEach (events : List Event) (b : Bundle) :
    let r := events.foldl after {}
    ((∃ p r', r.enterBundle b = .ok (p, r')) ↔
      ∃ order, order.Perm b.functions ∧ ∃ p r', r.enterEach order b.main = .ok (p, r')) ∧
    (∀ order, order.Perm b.functions → ∀ p p' r' r'', r.enterBundle b = .ok (p, r') →
      r.enterEach order b.main = .ok (p', r'') → p = p' ∧ r'.Alike r'') ∧
    (∀ engine : Engine, engine.registry = r → ∀ cause engine',
      (Engine.register (·.enterBundle b)).run engine = some (.error cause, engine') →
        engine' = engine) := by
  intro r
  have closed : Closed r.functions := (sound_empty.foldl events).1.functions
  refine ⟨⟨?_, ?_⟩, ?_, ?_⟩
  · rintro ⟨p, r', entered⟩
    exact exists_enterEach closed entered
  · rintro ⟨order, perm, p, r', entered⟩
    exact exists_enterBundle closed perm entered
  · exact fun order perm p p' r' r'' atOnce each => alike_of_entered closed perm atOnce each
  · intro engine _ cause engine' ran
    exact Engine.eq_of_register_error ran

end Registry

end SLanguage
