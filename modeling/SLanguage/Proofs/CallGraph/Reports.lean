import Mathlib.Data.List.Chain
import Mathlib.Data.List.TakeWhile
import SLanguage.Proofs.CallGraph
import SLanguage.Proofs.Outcomes

/-! What the check of the call graph reports. It accepts the roots exactly if every name that is
called from there on leads to a function and no function is reached from itself. Otherwise it
names a program that is reached with a callee of it that is unknown, or a closed path of calls. -/

namespace SLanguage

namespace CallGraph

variable {functions : Functions} {roots path : List Program} {caller callee p : Program}
  {done done' : List ProgramId} {names : List String}

/-- The program is a root, or calls lead to it from a root. -/
def Reached (functions : Functions) (roots : List Program) (p : Program) : Prop :=
  ∃ root ∈ roots, Relation.ReflTransGen functions.Calls root p

theorem Reached.call (reached : Reached functions roots caller)
    (calls : functions.Calls caller callee) : Reached functions roots callee := by
  obtain ⟨root, mem, reaches⟩ := reached
  exact ⟨root, mem, reaches.tail calls⟩

/-- A cycle of calls lists its first program again at the end. -/
structure Cycle (functions : Functions) (programs : List Program) : Prop where
  length : 2 ≤ programs.length
  closed : programs.head? = programs.getLast?
  calls : programs.IsChain functions.Calls

theorem Cycle.exists_transGen {programs : List Program} (cycle : Cycle functions programs) :
    ∃ p ∈ programs, Relation.TransGen functions.Calls p p := by
  obtain ⟨length, closed, calls⟩ := cycle
  match programs with
  | p :: q :: rest =>
    refine ⟨p, List.mem_cons_self .., ?_⟩
    obtain ⟨first, others⟩ := List.isChain_cons_cons.1 calls
    have last : (q :: rest).getLast (List.cons_ne_nil _ _) = p := by
      rw [List.head?_cons, List.getLast?_cons_cons, List.getLast?_eq_getLast_of_ne_nil
        (List.cons_ne_nil _ _)] at closed
      exact (Option.some.inj closed).symm
    have rest := List.relationReflTransGen_of_exists_isChain_cons rest others last
    exact .head' first rest

/-- What is true of the roots where the check ends with an error. -/
def Reports (functions : Functions) (roots : List Program) : Refusal → Prop
  | .unknownFunction program name =>
    ∃ p, Reached functions roots p ∧ p.name = program ∧
      (∃ i ∈ p.instructions.toList, i.Calls name) ∧ functions.find? name = none
  | .recursiveCall names =>
    ∃ programs, names = programs.map Program.name ∧ Cycle functions programs ∧
      ∀ p ∈ programs, Reached functions roots p
  | _ => False

/-- The path that a walk stands at the end of: calls lead along it, from a root on. -/
structure Leads (functions : Functions) (roots path : List Program) (caller : Program) :
    Prop where
  chain : path.IsChain functions.Calls
  last : path.getLast? = some caller
  reached : ∀ p ∈ path, Reached functions roots p
  apart : ∀ p ∈ path, Apart functions p

theorem Leads.of_root (mem : p ∈ roots) (apart : Apart functions p) :
    Leads functions roots [p] p where
  chain := .singleton p
  last := rfl
  reached := List.forall_mem_singleton.2 ⟨p, mem, .refl⟩
  apart := List.forall_mem_singleton.2 apart

namespace Leads

variable (leads : Leads functions roots path caller)

include leads

theorem caller_reached : Reached functions roots caller :=
  leads.reached caller (List.mem_of_getLast? leads.last)

theorem call (calls : functions.Calls caller callee) (apart : Apart functions callee) :
    Leads functions roots (path ++ [callee]) callee where
  chain := by
    refine List.isChain_append.2 ⟨leads.chain, .singleton callee, fun p last q first => ?_⟩
    cases leads.last.symm.trans last
    cases first
    exact calls
  last := List.getLast?_concat
  reached := List.forall_mem_append.2
    ⟨leads.reached, List.forall_mem_singleton.2 (leads.caller_reached.call calls)⟩
  apart := List.forall_mem_append.2 ⟨leads.apart, List.forall_mem_singleton.2 apart⟩

/-- A call back to the path closes a cycle, which is the path from there on. -/
theorem cycle (calls : functions.Calls caller callee) (inside : callee ∈ functions.items)
    (onPath : callee.graphId ∈ path.map Program.graphId) :
    Cycle functions ((path.dropWhile fun p => p.graphId != callee.graphId) ++ [callee]) := by
  have parts : path = (path.takeWhile fun p => p.graphId != callee.graphId) ++
      path.dropWhile fun p => p.graphId != callee.graphId :=
    List.takeWhile_append_dropWhile.symm
  have stops := List.head?_dropWhile_not (fun p : Program => p.graphId != callee.graphId) path
  generalize (path.takeWhile fun p => p.graphId != callee.graphId) = before at parts
  cases back : path.dropWhile fun p => p.graphId != callee.graphId with
  | nil =>
    obtain ⟨p, mem, same⟩ := List.mem_map.1 onPath
    have passed := List.dropWhile_eq_nil_iff.1 back p mem
    simp [same] at passed
  | cons first rest =>
    rw [back] at parts stops
    have mem : first ∈ path := parts ▸ List.mem_append_right _ (List.mem_cons_self ..)
    have same : first.graphId = callee.graphId := by simpa using stops
    obtain rfl : callee = first := leads.apart first mem callee inside same.symm
    have chain := leads.chain
    have last := leads.last
    rw [parts] at chain last
    rw [List.getLast?_append_of_ne_nil _ (List.cons_ne_nil _ _)] at last
    refine ⟨by simp, List.getLast?_concat.symm, ?_⟩
    refine List.isChain_append.2 ⟨(List.isChain_append.1 chain).2.1, .singleton _, ?_⟩
    intro p at_end q start
    cases last.symm.trans at_end
    cases start
    exact calls

end Leads

theorem walk_cons_of_none {name : String} (missing : functions.find? name = none) :
    walk functions path caller done (name :: names) =
      .error (.unknownFunction caller.name name) := by
  rw [walk]
  split
  · rfl
  · rename_i found
    cases missing.symm.trans found

/-- A walk that ends with an error reports what is true. The induction is on the walk. -/
theorem reports_of_walk (filed : functions.Filed Program.keys) {cause : Refusal}
    (leads : Leads functions roots path caller) (own : ∀ name ∈ names, name ∈ caller.callees)
    (failed : walk functions path caller done names = .error cause) :
    Reports functions roots cause := by
  induction path, caller, done, names using walk.induct functions with
  | case1 path caller done =>
    rw [walk] at failed
    cases failed
  | case2 path caller done name rest missing =>
    rw [walk_cons_of_none missing] at failed
    cases failed
    exact ⟨caller, leads.caller_reached, rfl,
      Program.mem_callees.1 (own name (List.mem_cons_self ..)), missing⟩
  | case3 path caller done name rest callee found old ih =>
    rw [walk_cons found, if_pos old] at failed
    exact ih leads (List.forall_mem_cons.1 own).2 failed
  | case4 path caller done name rest callee found fresh onPath =>
    rw [walk_cons found, if_neg fresh, if_pos onPath] at failed
    cases failed
    have calls : functions.Calls caller callee := ⟨name, own name (List.mem_cons_self ..), found⟩
    have inside := Functions.mem_items_of_find? found
    refine ⟨_, by rw [List.map_append]; rfl, leads.cycle calls inside onPath, ?_⟩
    refine List.forall_mem_append.2 ⟨fun p mem => ?_,
      List.forall_mem_singleton.2 (leads.caller_reached.call calls)⟩
    exact leads.reached p ((List.dropWhile_sublist _).subset mem)
  | case5 path caller done name rest callee found fresh off inner_ih ih =>
    rw [walk_cons found, if_neg fresh, if_neg off] at failed
    have calls : functions.Calls caller callee := ⟨name, own name (List.mem_cons_self ..), found⟩
    have inside := Functions.mem_items_of_find? found
    cases first : walk functions (path ++ [callee]) callee done callee.callees with
    | error cause' =>
      rw [first] at failed
      cases failed
      exact inner_ih (leads.call calls (apart_of_mem filed inside)) (fun _ => id) first
    | ok inner =>
      rw [first] at failed
      exact ih inner leads (List.forall_mem_cons.1 own).2 failed

theorem reports_of_checkFrom (filed : functions.Filed Program.keys) {cause : Refusal}
    {rest : List Program} (inside : ∀ root ∈ rest, root ∈ roots)
    (apart : ∀ root ∈ roots, Apart functions root)
    (failed : checkFrom functions done rest = .error cause) : Reports functions roots cause := by
  induction rest generalizing done with
  | nil => cases failed
  | cons root rest ih =>
    obtain ⟨own, others⟩ := List.forall_mem_cons.1 inside
    rw [checkFrom] at failed
    split at failed
    · exact ih others failed
    · cases walked : walk functions [root] root done root.callees with
      | error cause' =>
        rw [walked] at failed
        cases failed
        exact reports_of_walk filed (.of_root own (apart root own)) (fun _ => id) walked
      | ok inner =>
        rw [walked] at failed
        exact ih others failed

/-- What is done after a walk was done before or is a function of the table. -/
theorem mem_done_of_walk (walked : walk functions path caller done names = .ok done')
    {id : ProgramId} (mem : id ∈ done') : id ∈ done ∨ ∃ f ∈ functions.items, f.graphId = id := by
  induction path, caller, done, names using walk.induct functions generalizing done' with
  | case1 path caller done =>
    rw [walk] at walked
    cases walked
    exact .inl mem
  | case2 path caller done name rest missing =>
    rw [walk_cons_of_none missing] at walked
    cases walked
  | case3 path caller done name rest callee found old ih =>
    rw [walk_cons found, if_pos old] at walked
    exact ih walked mem
  | case4 path caller done name rest callee found fresh onPath =>
    rw [walk_cons found, if_neg fresh, if_pos onPath] at walked
    cases walked
  | case5 path caller done name rest callee found fresh off inner_ih ih =>
    rw [walk_cons found, if_neg fresh, if_neg off] at walked
    obtain ⟨inner, first, others⟩ := bind_eq_ok.1 walked
    obtain listed | function := ih inner others mem
    · obtain rfl | listed := List.mem_cons.1 listed
      · exact .inr ⟨callee, Functions.mem_items_of_find? found, rfl⟩
      · exact inner_ih first listed
    · exact .inr function

/-- Roots whose programs are told apart by their ids, from each other and from the functions. -/
structure Distinct (functions : Functions) (roots : List Program) : Prop where
  filed : functions.Filed Program.keys
  role : ∀ f ∈ functions.items, f.header.role = .function
  known : ∀ root ∈ roots, root ∈ functions.items ∨ root.header.role = .main
  mains : ∀ p ∈ roots, ∀ q ∈ roots, p.header.role = .main → q.header.role = .main →
    Text.fold p.name = Text.fold q.name → p = q

namespace Distinct

variable (distinct : Distinct functions roots)

include distinct

theorem ne_main {f : Program} (mem : f ∈ functions.items) (main : p.header.role = .main) :
    f.graphId ≠ p.graphId := by
  intro same
  have roles : f.header.role = p.header.role := congrArg Prod.fst same
  rw [distinct.role f mem, main] at roles
  cases roles

theorem apart : ∀ root ∈ roots, Apart functions root := by
  intro root mem
  obtain inside | main := distinct.known root mem
  · exact apart_of_mem distinct.filed inside
  · exact fun f inside same => absurd same (distinct.ne_main inside main)

theorem eq_of_graphId {q : Program} (mem : p ∈ roots) (mem' : q ∈ roots)
    (same : p.graphId = q.graphId) : p = q := by
  have roles : p.header.role = q.header.role := congrArg Prod.fst same
  obtain inside | main := distinct.known p mem
  · exact distinct.apart q mem' p inside same
  · exact distinct.mains p mem q mem' main (roles ▸ main) (congrArg Prod.snd same)

/-- A main program is done only once it has been checked itself. So what is done is in order
after every root, be it a main program or a function. -/
theorem resolves_of_checkFrom {rest : List Program} (inside : ∀ root ∈ rest, root ∈ roots)
    (sound : Sound functions done)
    (settled : ∀ root ∈ roots, root.graphId ∈ done → ∀ name ∈ root.callees,
      functions.Resolves name)
    (checked : checkFrom functions done rest = .ok ()) :
    ∀ root ∈ rest, ∀ name ∈ root.callees, functions.Resolves name := by
  induction rest generalizing done with
  | nil => exact List.forall_mem_nil _
  | cons root rest ih =>
    obtain ⟨own, others⟩ := List.forall_mem_cons.1 inside
    obtain ⟨passed, walked⟩ := checkFrom_cons_eq_ok checked
    rw [List.forall_mem_cons]
    by_cases old : root.graphId ∈ done
    · exact ⟨settled root own old, ih others sound settled (passed old)⟩
    · obtain ⟨inner, first, checked⟩ := walked old
      obtain ⟨sound, callees⟩ := walk_sound distinct.filed sound first
      refine ⟨callees, ih others (sound.cons callees (distinct.apart root own)) ?_ checked⟩
      intro p mem listed
      obtain same | listed := List.mem_cons.1 listed
      · rwa [distinct.eq_of_graphId mem own same]
      · obtain function | main := distinct.known p mem
        · exact sound p function listed
        · obtain before | ⟨f, function, same⟩ := mem_done_of_walk first listed
          · exact settled p mem before
          · exact absurd same (distinct.ne_main function main)

theorem resolves_of_check (checked : check functions roots = .ok ())
    (reached : Reached functions roots p) : ∀ name ∈ p.callees, functions.Resolves name := by
  obtain ⟨root, mem, reaches⟩ := reached
  have none : Sound functions [] := fun _ _ listed => nomatch listed
  have callees := distinct.resolves_of_checkFrom (fun _ => id) none
    (fun _ _ listed => nomatch listed) checked
  exact Functions.Resolves.of_reaches (callees root mem) reaches

theorem reports_of_check {cause : Refusal} (failed : check functions roots = .error cause) :
    Reports functions roots cause :=
  reports_of_checkFrom distinct.filed (fun _ => id) distinct.apart failed

end Distinct

/-- The check of main programs and of functions of a table, in which main programs differ in
their names, comes to an end. It accepts them exactly if every name that a program calls which
is reached from them leads to a function, at any depth of the arguments, and no program that is
reached is reached from itself. If it names a program and a function, the program is reached and
calls the function, which is unknown. If it answers with a cycle, each program of it calls the
one after it, and the last one is the first. It fails for no other reason. -/
theorem check_sound_and_complete {programs roots : List Program}
    (loaded : ∀ f ∈ programs, f.header.role = .function)
    (known : ∀ root ∈ roots,
      root ∈ (Functions.ofPrograms programs).items ∨ root.header.role = .main)
    (mains : ∀ p ∈ roots, ∀ q ∈ roots, p.header.role = .main → q.header.role = .main →
      Text.fold p.name = Text.fold q.name → p = q) :
    let functions := Functions.ofPrograms programs
    (check functions roots = .ok () ↔
      (∀ p, Reached functions roots p → ∀ i ∈ p.instructions.toList, ∀ name, i.Calls name →
        ∃ f, functions.find? name = some f) ∧
      ∀ p, Reached functions roots p → ¬ Relation.TransGen functions.Calls p p) ∧
    ∀ cause, check functions roots = .error cause → Reports functions roots cause := by
  intro functions
  have distinct : Distinct functions roots :=
    ⟨Functions.filed_ofPrograms programs,
      fun f mem => loaded f (Functions.mem_of_mem_ofPrograms f mem), known, mains⟩
  refine ⟨⟨fun checked => ⟨fun p reached i mem name calls => ?_, fun p reached => ?_⟩, ?_⟩,
    fun cause => distinct.reports_of_check⟩
  · have called : name ∈ p.callees := Program.mem_callees.2 ⟨i, mem, calls⟩
    exact (distinct.resolves_of_check checked reached name called).exists_find?
  · exact Functions.acyclic_of_callees (distinct.resolves_of_check checked reached)
  · rintro ⟨resolves, acyclic⟩
    cases answer : check functions roots with
    | ok => rfl
    | error cause =>
      have reported := distinct.reports_of_check answer
      cases cause with
      | unknownFunction program name =>
        obtain ⟨p, reached, -, ⟨i, mem, calls⟩, missing⟩ := reported
        obtain ⟨f, found⟩ := resolves p reached i mem name calls
        cases missing.symm.trans found
      | recursiveCall names =>
        obtain ⟨programs, -, cycle, reached⟩ := reported
        obtain ⟨p, mem, back⟩ := cycle.exists_transGen
        exact absurd back (acyclic p (reached p mem))
      | _ => exact reported.elim

/-- A program of one call. -/
def calling (header : Header) (c : Call) : Program where
  header
  degree := 0
  instructions := #[{ subject := .result, op := .quote c, number := 1 }]
  positions := ∅
  inputs := ∅
  works := ∅
  names := {}

theorem callees_calling (header : Header) (name : String) :
    (calling header ⟨name, []⟩).callees = [name] := by
  have called : (calling header ⟨name, []⟩).calls.flatMap Call.functions = [name] := rfl
  rw [Program.callees, called]
  rfl

def callingBack : Program :=
  calling ⟨"B", "B", .function⟩ ⟨" FIRST", []⟩

def callingOn : Program :=
  calling ⟨"A", "First", .function⟩ ⟨"B", []⟩

/-- The main program shares its name with a function, which is called back by its other name. -/
theorem check_sound_and_complete_calling :
    let functions := Functions.ofPrograms [callingOn, callingBack]
    let main := calling ⟨"A", "A", .main⟩ ⟨"a", []⟩
    check functions [main] = .error (.recursiveCall ["A", "B", "A"]) ∧
      Reports functions [main] (.recursiveCall ["A", "B", "A"]) := by
  intro functions main
  have entered : functions = ⟨[(["a", "first"], callingOn), (["b"], callingBack)]⟩ := rfl
  have first : functions.find? "a" = some callingOn := by rw [entered]; rfl
  have second : functions.find? "B" = some callingBack := by rw [entered]; rfl
  have back : functions.find? " FIRST" = some callingOn := by rw [entered]; rfl
  have failed : check functions [main] = .error (.recursiveCall ["A", "B", "A"]) := by
    rw [check, checkFrom, if_neg List.not_mem_nil, callees_calling, walk_cons first,
      if_neg List.not_mem_nil, if_neg (by decide), callingOn, callees_calling, walk_cons second,
      if_neg List.not_mem_nil, if_neg (by decide), callingBack, callees_calling, walk_cons back,
      if_neg List.not_mem_nil, if_pos (by decide)]
    rfl
  have loaded : ∀ f ∈ [callingOn, callingBack], f.header.role = .function :=
    List.forall_mem_cons.2 ⟨rfl, List.forall_mem_singleton.2 rfl⟩
  have known : ∀ root ∈ [main], root ∈ functions.items ∨ root.header.role = .main :=
    List.forall_mem_singleton.2 (.inr rfl)
  refine ⟨failed, (check_sound_and_complete loaded known ?_).2 _ failed⟩
  rintro p mem q mem' - - -
  rw [List.mem_singleton.1 mem, List.mem_singleton.1 mem']

end CallGraph

end SLanguage
