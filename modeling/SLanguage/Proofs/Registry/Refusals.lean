import SLanguage.Proofs.CallGraph.Reports
import SLanguage.Proofs.Registry.Names

/-! Registrations that are refused because of a name. A definition that cannot be read is refused
for what it says, and a call graph for its calls, so a name is reported as taken exactly if two
programs of one table, or two functions of one bundle, share a key. -/

namespace SLanguage

/-- The fault is in one definition. -/
def Refusal.IsOwn : Refusal → Prop
  | .unknownFunction .. | .recursiveCall _ | .duplicateDefinition _ => False
  | _ => True

/-- Where there is no result, the fault is in what is read and not in what else there is. -/
def FaultsAlone {α : Type} (x : Except Refusal α) : Prop :=
  ∀ e, x = .error e → e.IsOwn

namespace FaultsAlone

variable {α β : Type}

theorem ok (a : α) : FaultsAlone (.ok a) :=
  fun _ eq => nomatch eq

theorem error {e : Refusal} (own : e.IsOwn) : FaultsAlone (.error e : Except Refusal α) := by
  rintro _ ⟨⟩
  exact own

theorem bind {x : Except Refusal α} {f : α → Except Refusal β} (first : FaultsAlone x)
    (rest : ∀ a, FaultsAlone (f a)) : FaultsAlone (x >>= f) := by
  intro e failed
  obtain failed | ⟨a, -, failed⟩ := bind_eq_error.1 failed
  · exact first e failed
  · exact rest a e failed

theorem ite {c : Prop} [Decidable c] {x y : Except Refusal α} (yes : FaultsAlone x)
    (no : FaultsAlone y) : FaultsAlone (if c then x else y) := by
  split
  · exact yes
  · exact no

end FaultsAlone

theorem Variable.faultsAlone_parse (text : String) : FaultsAlone (Variable.parse text) := by
  unfold parse
  split
  · exact .ok _
  · exact .error trivial

theorem Label.faultsAlone_parse (text : String) : FaultsAlone (Label.parse text) := by
  unfold parse
  split
  · exact .ok _
  · exact .error trivial

theorem Argument.faultsAlone_readList (text : String) : FaultsAlone (Argument.readList text) := by
  intro e refused
  obtain ⟨fault, rfl⟩ | ⟨w, refused⟩ := refused_of_readList refused
  · trivial
  · exact Variable.faultsAlone_parse w e refused

theorem Call.faultsAlone_parse (function arguments : String) :
    FaultsAlone (Call.parse function arguments) :=
  .ite (.error trivial) (.bind (Argument.faultsAlone_readList _) fun _ => .ok _)

namespace Record

variable (r : Record) (key : String)

theorem faultsAlone_argument : FaultsAlone (r.argument key) := by
  unfold argument
  split
  · exact .ok _
  · exact .error trivial

theorem faultsAlone_jumpTarget : FaultsAlone (r.jumpTarget key) :=
  .bind (r.faultsAlone_argument key) fun _ => .bind (Label.faultsAlone_parse _) fun _ =>
    .ite (.error trivial) (.ok _)

theorem faultsAlone_constant : FaultsAlone r.constant := by
  refine .bind (r.faultsAlone_argument _) fun _ => ?_
  split
  · exact .ok _
  · exact .error trivial

theorem faultsAlone_otherVariable : FaultsAlone (r.otherVariable key) :=
  .bind (r.faultsAlone_argument key) fun _ => Variable.faultsAlone_parse _

theorem faultsAlone_call : FaultsAlone r.call :=
  .bind (r.faultsAlone_argument _) fun _ => Call.faultsAlone_parse _ _

theorem faultsAlone_operation (kind : Kind) : FaultsAlone (r.operation kind) := by
  have target (key : String) := r.faultsAlone_jumpTarget key
  have other (key : String) := r.faultsAlone_otherVariable key
  cases kind
  case increase | decrease | neutral | zeroVariable => exact .ok _
  case jumpNotZero | gotoLabel | jumpZero => exact .bind (target _) fun _ => .ok _
  case assignment => exact .bind (other _) fun _ => .ok _
  case constantAssignment => exact .bind r.faultsAlone_constant fun _ => .ok _
  case jumpEqualConstant =>
    exact .bind r.faultsAlone_constant fun _ => .bind (target _) fun _ => .ok _
  case jumpEqualVariable => exact .bind (other _) fun _ => .bind (target _) fun _ => .ok _
  case quote => exact .bind r.faultsAlone_call fun _ => .ok _
  case jumpEqualFunction =>
    exact .bind r.faultsAlone_call fun _ => .bind (target _) fun _ => .ok _

theorem faultsAlone_ownLabel : FaultsAlone r.ownLabel := by
  unfold ownLabel
  split
  · exact .ok _
  · exact .bind (Label.faultsAlone_parse _) fun _ => .ite (.error trivial) (.ok _)

theorem faultsAlone_instruction : FaultsAlone r.instruction := by
  unfold instruction
  split
  · exact .bind r.faultsAlone_ownLabel fun _ =>
      .bind (.ite (.ok _) (Variable.faultsAlone_parse _)) fun _ =>
        .bind (r.faultsAlone_operation _) fun _ => .ok _
  · exact .error trivial

end Record

namespace Program

theorem faultsAlone_loadRecords (records : List Record) (k : Nat) :
    FaultsAlone (loadRecords records k) := by
  induction records generalizing k with
  | nil => exact .ok _
  | cons r rest ih => exact .bind r.faultsAlone_instruction fun _ => .bind (ih _) fun _ => .ok _

theorem faultsAlone_indexLabels (program : String) (is : List Instruction) (k : Nat)
    (positions : Std.TreeMap Label Nat) : FaultsAlone (indexLabels program is k positions) := by
  induction is generalizing k positions with
  | nil => exact .ok _
  | cons i rest ih => exact .ite (ih _ _) (.ite (.error trivial) (ih _ _))

theorem faultsAlone_assemble (header : Header) (degree : Nat) (is : List Instruction)
    (names : Names) : FaultsAlone (assemble header degree is names) := by
  refine .bind (faultsAlone_indexLabels _ _ _ _) fun positions => ?_
  split
  · exact .error trivial
  · exact .ok _

/-- A definition is refused for what it says, whatever else there is. -/
theorem faultsAlone_ofDefinition (d : Definition) (role : Role) :
    FaultsAlone (ofDefinition d role) := by
  unfold ofDefinition load
  exact .ite (.error trivial)
    (.bind (faultsAlone_loadRecords _ _) fun _ => faultsAlone_assemble _ _ _ _)

end Program

/-- A name is taken, in a registry or inside a bundle. -/
def RegistrationError.IsDuplicate : RegistrationError → Prop
  | .duplicateMain _ | .duplicateFunction _ | .load (.duplicateDefinition _) => True
  | _ => False

namespace Registry

variable {α β : Type} {functions : Functions} {roots : List Program} {p : Program} {d : Definition}
  {definitions : List Definition} {role : Role} {r : Registry} {b : Bundle}

/-- The answer is that a name is taken. -/
def Duplicates (answer : Except RegistrationError α) : Prop :=
  ∃ e, answer = .error e ∧ e.IsDuplicate

theorem not_duplicates_ok (a : α) : ¬Duplicates (.ok a) := by
  rintro ⟨_, ⟨⟩, _⟩

theorem duplicates_bind {x : Except RegistrationError α} {f : α → Except RegistrationError β} :
    Duplicates (x >>= f) ↔ Duplicates x ∨ ∃ a, x = .ok a ∧ Duplicates (f a) := by
  constructor
  · rintro ⟨e, failed, taken⟩
    obtain failed | ⟨a, given, failed⟩ := bind_eq_error.1 failed
    · exact .inl ⟨e, failed, taken⟩
    · exact .inr ⟨a, given, e, failed, taken⟩
  · rintro (⟨e, failed, taken⟩ | ⟨a, given, e, failed, taken⟩)
    · exact ⟨e, bind_eq_error.2 (.inl failed), taken⟩
    · exact ⟨e, bind_eq_error.2 (.inr ⟨a, given, failed⟩), taken⟩

/-- What the rest answers counts where the first part names no name as taken. -/
theorem duplicates_bind_of_not {x : Except RegistrationError α}
    {f : α → Except RegistrationError β} (first : ¬Duplicates x) :
    Duplicates (x >>= f) ↔ ∃ a, x = .ok a ∧ Duplicates (f a) := by
  rw [duplicates_bind, or_iff_right first]

theorem not_duplicates_load : ¬Duplicates (load d role) := by
  rintro ⟨e, failed, taken⟩
  have own := Program.faultsAlone_ofDefinition d role
  unfold load at failed
  cases read : Program.ofDefinition d role with
  | error refusal =>
    rw [read] at failed
    cases failed
    have own := own refusal read
    cases refusal with
    | duplicateDefinition name => exact own
    | _ => exact taken
  | ok p =>
    rw [read] at failed
    cases failed

theorem not_duplicates_check (filed : functions.Filed Program.keys)
    (apart : ∀ root ∈ roots, CallGraph.Apart functions root) :
    ¬Duplicates (check functions roots) := by
  rintro ⟨e, failed, taken⟩
  unfold check at failed
  cases checked : CallGraph.check functions roots with
  | error refusal =>
    rw [checked] at failed
    cases failed
    have reported := CallGraph.reports_of_checkFrom filed (fun _ => id) apart checked
    cases refusal with
    | duplicateDefinition name => exact reported
    | _ => exact taken
  | ok _ =>
    rw [checked] at failed
    cases failed

theorem duplicates_withMain (filed : r.mains.Filed (Program.keys ∘ Cached.program)) :
    Duplicates (r.withMain p) ↔ ∃ c ∈ r.mains.items, p.Clashes c.program := by
  rw [← withMain_eq_error_iff filed]
  refine ⟨?_, fun refused => ⟨_, refused, trivial⟩⟩
  rintro ⟨e, refused, -⟩
  rw [refused, eq_duplicate_of_withMain refused]

theorem duplicates_withFunction (filed : functions.Filed Program.keys) :
    Duplicates (withFunction functions p) ↔ ∃ f ∈ functions.items, p.Clashes f := by
  rw [← withFunction_eq_error_iff filed]
  refine ⟨?_, fun refused => ⟨_, refused, trivial⟩⟩
  rintro ⟨e, refused, -⟩
  rw [refused, eq_duplicate_of_withFunction refused]

theorem duplicates_foldlM {table : Functions} (filed : functions.Filed Program.keys)
    (apart : table.Filed Program.keys) :
    Duplicates (table.items.foldlM withFunction functions) ↔
      ∃ f ∈ table.items, ∃ g ∈ functions.items, f.Clashes g := by
  rw [← foldlM_withFunction_taken_iff filed apart]
  constructor
  · rintro ⟨e, refused, -⟩
    obtain ⟨name, rfl⟩ := eq_duplicate_of_foldlM refused
    exact ⟨name, refused⟩
  · rintro ⟨name, refused⟩
    exact ⟨_, refused, trivial⟩

/-- One of the functions to be loaded is at odds with one before it, or with one of the table. -/
def Repeats (atOdds : Program → Program → Prop) (functions : Functions)
    (definitions : List Definition) : Prop :=
  ∃ front d back own larger p, definitions = front ++ d :: back ∧ Loads front own ∧
    Grows functions own larger ∧ load d .function = .ok p ∧ ∃ f ∈ larger.items, atOdds p f

theorem add_eq_error_iff (filed : functions.Filed Program.keys) :
    (∃ holder, functions.add p = .error holder) ↔ ∃ f ∈ functions.items, p.Clashes f := by
  have filed : functions.Filed (Program.keys ∘ id) := filed
  exact filed.refused_iff p p

theorem duplicates_loadFunctions (filed : functions.Filed Program.keys) :
    Duplicates (loadFunctions definitions functions) ↔
      Repeats Program.Clashes functions definitions := by
  induction definitions generalizing functions with
  | nil =>
    refine iff_of_false (not_duplicates_ok _) ?_
    rintro ⟨front, d, back, _, _, _, parts, _⟩
    exact List.append_ne_nil_of_right_ne_nil front (List.cons_ne_nil d back) parts.symm
  | cons d rest ih =>
    rw [loadFunctions, duplicates_bind_of_not not_duplicates_load]
    constructor
    · rintro ⟨p, loaded, taken⟩
      split at taken
      · rename_i mid added
        have one : Grows functions [p] mid := ⟨filed.insert added, Catalog.rows_insert added⟩
        obtain ⟨front, d', back, own, larger, q, rfl, loads, more, loaded', clash⟩ :=
          (ih one.filed).1 taken
        exact ⟨d :: front, d', back, p :: own, larger, q, rfl, .cons loaded loads, one.trans more,
          loaded', clash⟩
      · rename_i holder refused
        exact ⟨[], d, rest, [], functions, p, rfl, .nil, .nil filed, loaded,
          (add_eq_error_iff filed).1 ⟨holder, refused⟩⟩
    · rintro ⟨front, d', back, own, larger, q, parts, loads, grows, loaded, clash⟩
      cases front with
      | nil =>
        obtain ⟨rfl, rfl⟩ := List.cons.inj parts
        cases loads
        rw [grows.unique (.nil filed)] at clash
        obtain ⟨holder, refused⟩ := (add_eq_error_iff filed).2 clash
        refine ⟨q, loaded, ?_⟩
        rw [refused]
        exact ⟨_, rfl, trivial⟩
      | cons _ front =>
        obtain ⟨rfl, rfl⟩ := List.cons.inj parts
        obtain ⟨p, own, first, others, rfl⟩ := List.forall₂_cons_left_iff.1 loads
        obtain ⟨mid, one, more⟩ := grows.exists_cons
        refine ⟨p, first, ?_⟩
        rw [one.add_eq_ok]
        exact (ih one.filed).2 ⟨front, d', back, own, larger, q, rfl, others, more, loaded, clash⟩

/-- The last part of a registration looks at calls. -/
theorem not_duplicates_check_bind (filed : functions.Filed Program.keys)
    (apart : ∀ root ∈ roots, CallGraph.Apart functions root) (answer : α) :
    ¬Duplicates (check functions roots >>= fun _ => pure answer) := by
  rw [duplicates_bind_of_not (not_duplicates_check filed apart)]
  rintro ⟨_, -, taken⟩
  exact not_duplicates_ok answer taken

/-- A main program is refused for its name if and only if it has a key of one that is there. -/
theorem duplicates_enterMain (closed : Closed r.functions)
    (filed : r.mains.Filed (Program.keys ∘ Cached.program)) :
    Duplicates (r.enterMain d) ↔
      ∃ p, load d .main = .ok p ∧ ∃ c ∈ r.mains.items, p.Clashes c.program := by
  rw [enterMain, duplicates_bind_of_not not_duplicates_load]
  refine exists_congr fun p => and_congr_right fun loaded => ?_
  rw [duplicates_bind, duplicates_withMain filed]
  refine or_iff_left ?_
  rintro ⟨mains, -, taken⟩
  have apart := apart_main closed.role (loaded_of_load loaded).2
  exact not_duplicates_check_bind closed.filed (List.forall_mem_singleton.2 apart) _ taken

/-- A function is refused for its name if and only if it has a key of one that is there. -/
theorem duplicates_enterFunction (closed : Closed r.functions) :
    Duplicates (r.enterFunction d) ↔
      ∃ p, load d .function = .ok p ∧ ∃ f ∈ r.functions.items, p.Clashes f := by
  rw [enterFunction, duplicates_bind_of_not not_duplicates_load]
  refine exists_congr fun p => and_congr_right fun loaded => ?_
  rw [duplicates_bind, duplicates_withFunction closed.filed]
  refine or_iff_left ?_
  rintro ⟨functions, added, taken⟩
  have grows := grows_withFunction closed.filed added
  have apart := CallGraph.apart_of_mem grows.filed (grows.mem (List.mem_singleton_self p))
  exact not_duplicates_check_bind grows.filed (List.forall_mem_singleton.2 apart) _ taken

/-- What is left of a bundle once its programs are loaded. -/
theorem duplicates_entering (closed : Closed r.functions)
    (filed : r.mains.Filed (Program.keys ∘ Cached.program)) (main : p.header.role = .main)
    {own : Functions} (filedOwn : own.Filed Program.keys)
    (role : ∀ f ∈ own.items, f.header.role = .function) :
    Duplicates (do
      let mains ← r.withMain p
      let functions ← own.items.foldlM withFunction r.functions
      check functions (p :: own.items)
      return (p, ({ mains, functions } : Registry))) ↔
    (∃ c ∈ r.mains.items, p.Clashes c.program) ∨
      ∃ f ∈ own.items, ∃ g ∈ r.functions.items, f.Clashes g := by
  rw [duplicates_bind, duplicates_withMain filed, ← duplicates_foldlM closed.filed filedOwn]
  refine ⟨Or.imp_right ?_, fun taken => ?_⟩
  · rintro ⟨mains, -, taken⟩
    obtain first | ⟨larger, added, taken⟩ := duplicates_bind.1 taken
    · exact first
    have grows := grows_foldlM closed.filed added
    have function : ∀ f ∈ larger.items, f.header.role = .function := by
      rw [grows.items]
      exact List.forall_mem_append.2 ⟨closed.role, role⟩
    have apart := List.forall_mem_cons.2 ⟨apart_main function main,
      fun f mem => CallGraph.apart_of_mem grows.filed (grows.mem mem)⟩
    exact absurd taken (not_duplicates_check_bind grows.filed apart _)
  · cases entered : r.withMain p with
    | error e =>
      refine .inl ((duplicates_withMain filed).1 ⟨e, entered, ?_⟩)
      rw [eq_duplicate_of_withMain entered]
      trivial
    | ok mains => exact taken.imp_right fun taken => ⟨mains, rfl, duplicates_bind.2 (.inl taken)⟩

/-- A bundle is refused for a name if and only if one of its functions has a key of one before it,
or one of its programs has a key of one that is there. -/
theorem duplicates_enterBundle (closed : Closed r.functions)
    (filed : r.mains.Filed (Program.keys ∘ Cached.program)) :
    Duplicates (r.enterBundle b) ↔ ∃ p, load b.main .main = .ok p ∧
      (Repeats Program.Clashes ∅ b.functions ∨ ∃ own, loadFunctions b.functions ∅ = .ok own ∧
        ((∃ c ∈ r.mains.items, p.Clashes c.program) ∨
          ∃ f ∈ own.items, ∃ g ∈ r.functions.items, f.Clashes g)) := by
  rw [enterBundle, duplicates_bind_of_not not_duplicates_load]
  refine exists_congr fun p => and_congr_right fun loaded => ?_
  rw [duplicates_bind, duplicates_loadFunctions .empty]
  refine or_congr_right (exists_congr fun own => and_congr_right fun loadedOwn => ?_)
  obtain ⟨filedOwn, given⟩ := loaded_of_loadFunctions .empty (List.forall_mem_nil _) loadedOwn
  exact duplicates_entering closed filed (loaded_of_load loaded).2 filedOwn
    fun f mem => (given f mem).2

end Registry

end SLanguage
