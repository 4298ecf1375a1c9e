import Mathlib.Logic.Relation
import SLanguage.CallGraph
import SLanguage.Proofs.Catalog

/-! What the check of the call graph grants. A name resolves if a function answers to it
all of whose callees resolve. From programs that are checked only such names are called, and
a function with such a name is not reached from itself. -/

namespace SLanguage

/-- The instruction calls the function of the name, at any depth of its arguments. -/
def Instruction.Calls (i : Instruction) (name : String) : Prop :=
  ∃ c, i.op.call? = some c ∧ name ∈ c.functions

theorem Program.mem_callees {p : Program} {name : String} :
    name ∈ p.callees ↔ ∃ i ∈ p.instructions.toList, i.Calls name := by
  unfold callees calls
  rw [Std.TreeSet.mem_toList, Std.TreeSet.mem_ofList, List.contains_iff_mem, List.mem_flatMap]
  simp only [List.mem_filterMap]
  constructor
  · rintro ⟨c, ⟨i, mem, calls⟩, named⟩
    exact ⟨i, mem, c, calls, named⟩
  · rintro ⟨i, mem, c, calls, named⟩
    exact ⟨c, ⟨i, mem, calls⟩, named⟩

/-- A program is filed under its name and under its display name. -/
theorem Program.name_mem_keys (p : Program) : Text.fold p.header.name ∈ p.keys := by
  simp only [keys]
  split <;> exact List.mem_cons_self ..

theorem Program.displayName_mem_keys (p : Program) : Text.fold p.header.displayName ∈ p.keys := by
  simp only [keys]
  split
  · rename_i same
    exact List.mem_singleton.2 same
  · exact List.mem_cons_of_mem _ (List.mem_cons_self ..)

namespace Functions

variable {functions : Functions} {name : String} {f g : Program}

/-- One program calls another function of the table. -/
def Calls (functions : Functions) (f g : Program) : Prop :=
  ∃ name ∈ f.callees, functions.find? name = some g

/-- The name leads to a function, and so do all names that are called on the way. -/
inductive Resolves (functions : Functions) : String → Prop where
  | intro {name : String} {f : Program} (found : functions.find? name = some f)
      (callees : ∀ inner ∈ f.callees, Resolves functions inner) : Resolves functions name

theorem Resolves.exists_find? (resolves : functions.Resolves name) :
    ∃ f, functions.find? name = some f := by
  obtain ⟨found, -⟩ := resolves
  exact ⟨_, found⟩

theorem Resolves.of_found (resolves : functions.Resolves name)
    (found : functions.find? name = some f) : ∀ inner ∈ f.callees, functions.Resolves inner := by
  obtain ⟨found', callees⟩ := resolves
  obtain rfl := Option.some.inj (found.symm.trans found')
  exact callees

theorem Resolves.of_reaches {p : Program} (callees : ∀ name ∈ p.callees, functions.Resolves name)
    (reaches : Relation.ReflTransGen functions.Calls p f) :
    ∀ name ∈ f.callees, functions.Resolves name := by
  induction reaches with
  | refl => exact callees
  | tail _ last ih =>
    obtain ⟨name, called, found⟩ := last
    exact (ih name called).of_found found

/-- A name that resolves does so in a larger table. -/
theorem Resolves.of_extends {larger : Functions} (grown : functions.Extends larger)
    (resolves : functions.Resolves name) : larger.Resolves name := by
  induction resolves with
  | intro found _ ih => exact .intro (grown _ _ found) ih

/-- No cycle of calls leads through a function whose name resolves. -/
theorem Resolves.acyclic (resolves : functions.Resolves name)
    (found : functions.find? name = some f) : ¬ Relation.TransGen functions.Calls f f := by
  induction resolves generalizing f with
  | @intro name f' found' callees ih =>
    obtain rfl := Option.some.inj (found.symm.trans found')
    intro cycle
    obtain ⟨g, ⟨inner, called, first⟩, rest⟩ := Relation.TransGen.head'_iff.1 cycle
    exact ih inner called first (.tail' rest ⟨inner, called, first⟩)

/-- No program is in a cycle of calls all of whose callees resolve. -/
theorem acyclic_of_callees {p : Program} (callees : ∀ name ∈ p.callees, functions.Resolves name) :
    ¬ Relation.TransGen functions.Calls p p := by
  intro cycle
  obtain ⟨caller, reaches, name, called, found⟩ := Relation.TransGen.tail'_iff.1 cycle
  exact (Resolves.of_reaches callees reaches name called).acyclic found cycle

theorem eq_of_graphId (filed : functions.Filed Program.keys) (mem : f ∈ functions.items)
    (mem' : g ∈ functions.items) (same : f.graphId = g.graphId) : f = g := by
  have folded : Text.fold f.header.name = Text.fold g.header.name := congrArg Prod.snd same
  exact filed.eq_of_key mem mem' f.name_mem_keys (folded ▸ g.name_mem_keys)

end Functions

namespace CallGraph

variable {functions : Functions}

/-- The functions that are done call only names that resolve. -/
def Sound (functions : Functions) (done : List ProgramId) : Prop :=
  ∀ f ∈ functions.items, f.graphId ∈ done → ∀ name ∈ f.callees, functions.Resolves name

/-- No function of the table is taken for the program unless it is the program. -/
def Apart (functions : Functions) (p : Program) : Prop :=
  ∀ f ∈ functions.items, f.graphId = p.graphId → f = p

theorem apart_of_mem (filed : functions.Filed Program.keys) {f : Program}
    (mem : f ∈ functions.items) : Apart functions f :=
  fun _ mem' same => Functions.eq_of_graphId filed mem' mem same

theorem Sound.cons {done : List ProgramId} (sound : Sound functions done) {p : Program}
    (callees : ∀ name ∈ p.callees, functions.Resolves name) (apart : Apart functions p) :
    Sound functions (p.graphId :: done) := by
  intro f mem listed
  obtain same | listed := List.mem_cons.1 listed
  · rw [apart f mem same]
    exact callees
  · exact sound f mem listed

theorem walk_cons {path : List Program} {caller callee : Program} {done : List ProgramId}
    {name : String} {rest : List String} (found : functions.find? name = some callee) :
    walk functions path caller done (name :: rest) =
      if callee.graphId ∈ done then walk functions path caller done rest
      else if callee.graphId ∈ path.map Program.graphId then
        .error (.recursiveCall ((path.dropWhile fun p => p.graphId != callee.graphId).map
          Program.name ++ [callee.name]))
      else walk functions (path ++ [callee]) callee done callee.callees >>= fun done =>
        walk functions path caller (callee.graphId :: done) rest := by
  rw [walk]
  split
  · rename_i missing
    cases missing.symm.trans found
  · rename_i callee' found'
    cases found.symm.trans found'
    rfl

/-- A name is passed if its function is done, or is off the path and done after a walk. -/
theorem walk_cons_eq_ok {path : List Program} {caller : Program} {done done' : List ProgramId}
    {name : String} {rest : List String}
    (walked : walk functions path caller done (name :: rest) = .ok done') :
    ∃ callee, functions.find? name = some callee ∧
      (callee.graphId ∈ done → walk functions path caller done rest = .ok done') ∧
      (callee.graphId ∉ done → callee.graphId ∉ path.map Program.graphId ∧
        ∃ inner, walk functions (path ++ [callee]) callee done callee.callees = .ok inner ∧
          walk functions path caller (callee.graphId :: inner) rest = .ok done') := by
  cases found : functions.find? name with
  | none =>
    rw [walk] at walked
    split at walked
    · cases walked
    · rename_i callee found'
      cases found.symm.trans found'
  | some callee =>
    rw [walk_cons found] at walked
    refine ⟨callee, rfl, fun old => ?_, fun fresh => ?_⟩
    · rwa [if_pos old] at walked
    · rw [if_neg fresh] at walked
      split at walked
      · cases walked
      · rename_i off
        cases first : walk functions (path ++ [callee]) callee done callee.callees with
        | error e =>
          rw [first] at walked
          cases walked
        | ok inner =>
          rw [first] at walked
          exact ⟨off, inner, rfl, walked⟩

/-- The names that a walk has passed resolve. The induction is on the walk. -/
theorem walk_sound (filed : functions.Filed Program.keys) {path : List Program}
    {caller : Program} {done done' : List ProgramId} {names : List String}
    (sound : Sound functions done) (walked : walk functions path caller done names = .ok done') :
    Sound functions done' ∧ ∀ name ∈ names, functions.Resolves name := by
  induction path, caller, done, names using walk.induct functions generalizing done' with
  | case1 path caller done =>
    rw [walk] at walked
    cases walked
    exact ⟨sound, List.forall_mem_nil _⟩
  | case2 path caller done name rest missing =>
    obtain ⟨callee, found, -⟩ := walk_cons_eq_ok walked
    cases missing.symm.trans found
  | case3 path caller done name rest callee found old ih =>
    obtain ⟨callee', found', passed, -⟩ := walk_cons_eq_ok walked
    obtain rfl := Option.some.inj (found.symm.trans found')
    obtain ⟨sound', others⟩ := ih sound (passed old)
    have own := sound callee (Functions.mem_items_of_find? found) old
    exact ⟨sound', List.forall_mem_cons.2 ⟨.intro found own, others⟩⟩
  | case4 path caller done name rest callee found fresh onPath =>
    obtain ⟨callee', found', -, passed⟩ := walk_cons_eq_ok walked
    obtain rfl := Option.some.inj (found.symm.trans found')
    exact absurd onPath (passed fresh).1
  | case5 path caller done name rest callee found fresh off inner_ih ih =>
    obtain ⟨callee', found', -, passed⟩ := walk_cons_eq_ok walked
    obtain rfl := Option.some.inj (found.symm.trans found')
    obtain ⟨-, inner, first, walked⟩ := passed fresh
    obtain ⟨sound, own⟩ := inner_ih sound first
    have mem := Functions.mem_items_of_find? found
    obtain ⟨sound', others⟩ := ih inner (sound.cons own (apart_of_mem filed mem)) walked
    exact ⟨sound', List.forall_mem_cons.2 ⟨.intro found own, others⟩⟩

theorem checkFrom_cons_eq_ok {done : List ProgramId} {root : Program} {rest : List Program}
    (checked : checkFrom functions done (root :: rest) = .ok ()) :
    (root.graphId ∈ done → checkFrom functions done rest = .ok ()) ∧
      (root.graphId ∉ done → ∃ inner, walk functions [root] root done root.callees = .ok inner ∧
        checkFrom functions (root.graphId :: inner) rest = .ok ()) := by
  rw [checkFrom] at checked
  refine ⟨fun old => ?_, fun fresh => ?_⟩
  · rwa [if_pos old] at checked
  · rw [if_neg fresh] at checked
    cases first : walk functions [root] root done root.callees with
    | error e =>
      rw [first] at checked
      cases checked
    | ok inner =>
      rw [first] at checked
      exact ⟨inner, rfl, checked⟩

theorem resolves_of_checkFrom (filed : functions.Filed Program.keys) {done : List ProgramId}
    (sound : Sound functions done) {roots : List Program}
    (inside : ∀ root ∈ roots, root ∈ functions.items)
    (checked : checkFrom functions done roots = .ok ()) :
    ∀ root ∈ roots, ∀ name ∈ root.callees, functions.Resolves name := by
  induction roots generalizing done with
  | nil => exact List.forall_mem_nil _
  | cons root rest ih =>
    obtain ⟨own, others⟩ := List.forall_mem_cons.1 inside
    obtain ⟨passed, walked⟩ := checkFrom_cons_eq_ok checked
    rw [List.forall_mem_cons]
    by_cases old : root.graphId ∈ done
    · exact ⟨sound root own old, ih sound others (passed old)⟩
    · obtain ⟨inner, first, checked⟩ := walked old
      obtain ⟨sound, callees⟩ := walk_sound filed sound first
      exact ⟨callees, ih (sound.cons callees (apart_of_mem filed own)) others checked⟩

/-- Everything that a checked program calls resolves, be it in the table or not. -/
theorem resolves_of_check (filed : functions.Filed Program.keys) {root : Program}
    (checked : check functions [root] = .ok ()) :
    ∀ name ∈ root.callees, functions.Resolves name := by
  have none : Sound functions [] := fun _ _ listed => nomatch listed
  obtain ⟨inner, walked, -⟩ := (checkFrom_cons_eq_ok checked).2 (List.not_mem_nil)
  exact (walk_sound filed none walked).2

/-- A program beside the table may be checked together with functions of the table. -/
theorem resolves_of_check_cons (filed : functions.Filed Program.keys) {root : Program}
    {roots : List Program} (apart : Apart functions root)
    (inside : ∀ f ∈ roots, f ∈ functions.items)
    (checked : check functions (root :: roots) = .ok ()) :
    ∀ p ∈ root :: roots, ∀ name ∈ p.callees, functions.Resolves name := by
  have none : Sound functions [] := fun _ _ listed => nomatch listed
  obtain ⟨inner, walked, checked⟩ := (checkFrom_cons_eq_ok checked).2 (List.not_mem_nil)
  obtain ⟨sound, callees⟩ := walk_sound filed none walked
  exact List.forall_mem_cons.2
    ⟨callees, resolves_of_checkFrom filed (sound.cons callees apart) inside checked⟩

/-- A walk along names that resolve does not fail. It never meets its path again, since all
programs of the path lead to what is called. -/
theorem exists_walk (filed : functions.Filed Program.keys) (path : List Program)
    (caller : Program) (done : List ProgramId) {names : List String}
    (apart : ∀ p ∈ path, Apart functions p)
    (leads : ∀ p ∈ path, ∀ name ∈ names, ∀ f, functions.find? name = some f →
      Relation.TransGen functions.Calls p f)
    (resolves : ∀ name ∈ names, functions.Resolves name) :
    ∃ done', walk functions path caller done names = .ok done' := by
  induction path, caller, done, names using walk.induct functions with
  | case1 path caller done => exact ⟨done, by rw [walk]⟩
  | case2 path caller done name rest missing =>
    obtain ⟨f, found⟩ := (resolves name (List.mem_cons_self ..)).exists_find?
    cases missing.symm.trans found
  | case3 path caller done name rest callee found old ih =>
    rw [walk_cons found, if_pos old]
    exact ih apart (fun p mem other later => leads p mem other (List.mem_cons_of_mem _ later))
      (List.forall_mem_cons.1 resolves).2
  | case4 path caller done name rest callee found fresh onPath =>
    obtain ⟨p, mem, same⟩ := List.mem_map.1 onPath
    obtain rfl := apart p mem callee (Functions.mem_items_of_find? found) same.symm
    have cycle := leads callee mem name (List.mem_cons_self ..) callee found
    exact absurd cycle ((resolves name (List.mem_cons_self ..)).acyclic found)
  | case5 path caller done name rest callee found fresh off inner_ih ih =>
    obtain ⟨own, others⟩ := List.forall_mem_cons.1 resolves
    have inside := Functions.mem_items_of_find? found
    obtain ⟨inner, walked⟩ := inner_ih
      (List.forall_mem_append.2 ⟨apart, List.forall_mem_singleton.2 (apart_of_mem filed inside)⟩)
      (by
        intro p mem name' called f found'
        have last : functions.Calls callee f := ⟨name', called, found'⟩
        obtain before | rfl := List.mem_append.1 mem |>.imp_right List.mem_singleton.1
        · exact (leads p before name (List.mem_cons_self ..) callee found).tail last
        · exact .single last)
      (own.of_found found)
    rw [walk_cons found, if_neg fresh, if_neg off, walked]
    exact ih inner apart
      (fun p mem other later => leads p mem other (List.mem_cons_of_mem _ later)) others

/-- Roots from which only names that resolve are called pass the check. -/
theorem checkFrom_eq_ok (filed : functions.Filed Program.keys) {roots : List Program}
    {done : List ProgramId} (apart : ∀ root ∈ roots, Apart functions root)
    (resolves : ∀ root ∈ roots, ∀ name ∈ root.callees, functions.Resolves name) :
    checkFrom functions done roots = .ok () := by
  induction roots generalizing done with
  | nil => rw [checkFrom]
  | cons root rest ih =>
    obtain ⟨own, others⟩ := List.forall_mem_cons.1 resolves
    obtain ⟨alone, apart⟩ := List.forall_mem_cons.1 apart
    rw [checkFrom]
    split
    · exact ih apart others
    · obtain ⟨inner, walked⟩ := exists_walk filed [root] root done
        (List.forall_mem_singleton.2 alone)
        (List.forall_mem_singleton.2 fun name called f found => .single ⟨name, called, found⟩) own
      rw [walked]
      exact ih apart others

end CallGraph

end SLanguage
