import Mathlib.Data.List.MinMax
import Mathlib.Order.Nat
import SLanguage.Proofs.Calls.Strategies
import SLanguage.Proofs.Lowering.Callees
import SLanguage.Proofs.Ranks

/-! The limit on nested calls. It cuts an evaluation off or makes no difference to it, under either
strategy. A call whose calls form no cycle has a height, which counts the levels of nesting below
it, in arguments and in bodies, and a limit that leaves room for the height cuts nothing off. -/

namespace SLanguage

def Argument.call? : Argument → Option Call
  | .var _ => none
  | .call f arguments => some ⟨f, arguments⟩

theorem Argument.mem_filterMap_call? {as : List Argument} {c : Call} :
    c ∈ as.filterMap Argument.call? ↔ .call c.function c.arguments ∈ as := by
  rw [List.mem_filterMap]
  constructor
  · rintro ⟨a, mem, called⟩
    cases a with
    | var v => cases called
    | call f inner =>
      cases called
      exact mem
  · exact fun mem => ⟨_, mem, rfl⟩

namespace Call

/-- The calls one level below a call of this function: those among its arguments and those in the
body of the function. -/
def below (c : Call) (callee : Program) : List Call :=
  c.arguments.filterMap Argument.call? ++ callee.calls

/-- The height of a call is one more than the greatest height of a call below it, and 1 if there is
none. A call has a height only if its calls all lead to functions and none of them comes back. -/
inductive Height (functions : Functions) : Call → Nat → Prop where
  | intro {c : Call} {callee : Program} (found : functions.find? c.function = some callee)
      (height : Call → Nat)
      (inner : ∀ inner ∈ c.below callee, Height functions inner (height inner)) :
      Height functions c (1 + ((c.below callee).map height).foldr max 0)

/-- Evaluating the call may come to run this function. -/
def Reaches (functions : Functions) (c : Call) (f : Program) : Prop :=
  ∃ name ∈ c.functions, ∃ g, functions.find? name = some g ∧
    Relation.ReflTransGen functions.Calls g f

variable {functions : Functions} {c : Call} {callee : Program} {n : Nat}

theorem mem_below_of_argument {inner : Call}
    (inside : .call inner.function inner.arguments ∈ c.arguments) : inner ∈ c.below callee :=
  List.mem_append_left _ (Argument.mem_filterMap_call?.2 inside)

theorem mem_below_of_body {i : Instruction} {inner : Call} (mem : i ∈ callee.instructions.toList)
    (calls : i.op.call? = some inner) : inner ∈ c.below callee :=
  List.mem_append_right _ (List.mem_filterMap.2 ⟨i, mem, calls⟩)

namespace Height

theorem unique (height : c.Height functions n) {n' : Nat} (height' : c.Height functions n') :
    n' = n := by
  induction height generalizing n' with
  | @intro c callee found h _ ih =>
    obtain @⟨_, callee', found', h', inner'⟩ := height'
    obtain rfl := Option.some.inj (found.symm.trans found')
    have same : (c.below callee).map h' = (c.below callee).map h :=
      List.map_congr_left fun inner mem => ih inner mem (inner' inner mem)
    rw [same]

theorem exists_of_below (found : functions.find? c.function = some callee)
    (inner : ∀ inner ∈ c.below callee, ∃ n, inner.Height functions n) :
    ∃ n, c.Height functions n := by
  choose! height inner using inner
  exact ⟨_, .intro found height inner⟩

end Height

/-- Heights of calls are known as soon as those in the bodies of the named functions are. -/
def Grounded (functions : Functions) (name : String) : Prop :=
  ∃ f, functions.find? name = some f ∧ ∀ c ∈ f.calls, ∃ n, c.Height functions n

end Call

open Call (Grounded)

mutual

theorem Argument.exists_height {functions : Functions} : ∀ a : Argument,
    (∀ f ∈ a.functions, Grounded functions f) →
      ∀ c, a.call? = some c → ∃ n, c.Height functions n
  | .var _, _, _, called => nomatch called
  | .call f as, grounded, c, called => by
    cases called
    obtain ⟨⟨callee, found, body⟩, others⟩ := List.forall_mem_cons.1 grounded
    exact Call.Height.exists_of_below found
      (List.forall_mem_append.2 ⟨Argument.exists_heights as others, body⟩)

theorem Argument.exists_heights {functions : Functions} : ∀ as : List Argument,
    (∀ f ∈ Argument.functionsOf as, Grounded functions f) →
      ∀ c ∈ as.filterMap Argument.call?, ∃ n, c.Height functions n
  | [], _ => List.forall_mem_nil _
  | a :: as, grounded => by
    obtain ⟨own, others⟩ := List.forall_mem_append.1 grounded
    intro c mem
    obtain ⟨b, occurs, called⟩ := List.mem_filterMap.1 mem
    obtain same | later := List.mem_cons.1 occurs
    · exact Argument.exists_height a own c (same ▸ called)
    · exact Argument.exists_heights as others c (List.mem_filterMap.2 ⟨b, later, called⟩)

end

namespace Call

variable {functions : Functions} {c : Call}

theorem exists_height_of_grounded (grounded : ∀ f ∈ c.functions, Grounded functions f) :
    ∃ n, c.Height functions n :=
  Argument.exists_height (.call c.function c.arguments) grounded c rfl

theorem grounded_of_resolves {name : String} (resolves : functions.Resolves name) :
    Grounded functions name := by
  induction resolves with
  | @intro name f found _ ih =>
    refine ⟨f, found, fun c mem => exists_height_of_grounded fun inner named => ih inner ?_⟩
    obtain ⟨i, occurs, calls⟩ := List.mem_filterMap.1 mem
    exact Program.mem_callees.2 ⟨i, occurs, c, calls, named⟩

/-- A call has a height if all functions that it comes to are known and none calls itself. -/
theorem exists_height (named : ∀ name ∈ c.functions, ∃ f, functions.find? name = some f)
    (known : ∀ f, c.Reaches functions f → ∀ name ∈ f.callees, ∃ g, functions.find? name = some g)
    (acyclic : ∀ f, c.Reaches functions f → ¬ Relation.TransGen functions.Calls f f) :
    ∃ n, c.Height functions n := by
  refine exists_height_of_grounded fun name mem => grounded_of_resolves ?_
  obtain ⟨f, found⟩ := named name mem
  have reaches (g : Program) (leads : Relation.ReflTransGen functions.Calls f g) :
      c.Reaches functions g := ⟨name, mem, f, found, leads⟩
  exact Functions.resolves_of_acyclic found (fun g leads => known g (reaches g leads))
    fun g leads => acyclic g (reaches g leads)

/-- The call has a height, maybe under other names, and there is room for it. -/
def Fits (functions : Functions) (room : Nat) (c : Call) : Prop :=
  ∃ (own : Call) (var : Variable → Variable) (n : Nat),
    c = own.rename var ∧ own.Height functions n ∧ n ≤ room

theorem Height.exists_below (height : c.Height functions n) : ∃ callee,
    functions.find? c.function = some callee ∧ ∃ height : Call → Nat,
      ∀ inner ∈ c.below callee, inner.Height functions (height inner) ∧ height inner < n := by
  obtain @⟨_, callee, found, height, inner⟩ := height
  refine ⟨callee, found, height, fun below mem => ⟨inner below mem, ?_⟩⟩
  calc
    height below ≤ ((c.below callee).map height).foldr max 0 :=
      List.le_max_of_le (List.mem_map_of_mem mem) (Nat.le_refl _)
    _ < 1 + ((c.below callee).map height).foldr max 0 := by omega

/-- With room for its height a call is not cut off. -/
theorem Fits.failsWith {ev : Evaluator} (assembled : ∀ f ∈ ev.functions.items, f.Assembled)
    {room : Nat} (fits : c.Fits ev.functions room) (s : Store) :
    (ev.answer room c s).FailsWith fun e => ∀ f l, e ≠ .callDepthExceeded f l := by
  refine Evaluator.answer_failsWith_of (fun room c => c.Fits ev.functions room) assembled
    ?_ ?_ ?_ ?_ ?_ room fits s
  · rintro _ ⟨own, var, n, rfl, ⟨⟩, le⟩
    omega
  · exact fun _ _ _ _ _ _ => RunError.noConfusion
  · exact fun _ _ _ _ => RunError.noConfusion
  · rintro room _ inner ⟨own, var, n, rfl, height, le⟩ mem
    obtain ⟨below, occurs, rfl⟩ := exists_of_mem_rename mem
    obtain ⟨callee, -, height, lower⟩ := height.exists_below
    obtain ⟨high, less⟩ := lower below (mem_below_of_argument occurs)
    exact ⟨below, var, _, rfl, high, by omega⟩
  -- A body spliced into its caller runs under the caller's names, and calls keep their heights.
  · rintro room _ callee i inner var ⟨own, _, n, rfl, height, le⟩ found mem calls
    obtain ⟨callee', found', height, lower⟩ := height.exists_below
    obtain rfl := Option.some.inj (found.symm.trans found')
    obtain ⟨high, less⟩ := lower inner (mem_below_of_body mem calls)
    exact ⟨inner, var, _, rfl, high, by omega⟩

end Call

namespace Evaluator

variable {functions : Functions} {strategy : Strategy} {limit limit' depth : Nat} {c : Call}
  {s : Store} {r : Except RunError Yield}

/-- Two limits make a difference only where the lower one cuts an evaluation off. -/
theorem answerAt_agrees_of_le (le : limit ≤ limit') (stepLimit : Nat) :
    Attempt.Agrees (fun why => ∃ f, why = some (.callDepthExceeded f limit)) Eq
      (answerAt ⟨functions, strategy, limit, stepLimit⟩ depth c s)
      (answerAt ⟨functions, strategy, limit', stepLimit⟩ depth c s) :=
  answer_agrees_of_limits ⟨functions, strategy, limit, stepLimit⟩
    ⟨functions, strategy, limit', stepLimit⟩ rfl rfl (Nat.le_refl _)
    (fun less => absurd less (Nat.lt_irrefl _)) (Nat.sub_le_sub_right le depth)
    (.inr fun f => ⟨f, rfl⟩) c s

theorem Returns.of_le (le : limit ≤ limit')
    (returns : Returns functions strategy limit depth c s r)
    (whole : ∀ f, r ≠ .error (.callDepthExceeded f limit)) :
    Returns functions strategy limit' depth c s r := by
  obtain ⟨stepLimit, ended⟩ := returns
  refine ⟨stepLimit, (answerAt_agrees_of_le le stepLimit).run_of_whole ended ?_⟩
  rintro e rfl ⟨f, cut⟩
  cases cut
  exact whole f rfl

theorem Returns.or_cut (le : limit ≤ limit')
    (returns : Returns functions strategy limit' depth c s r) :
    Returns functions strategy limit depth c s r ∨
      ∃ f, Returns functions strategy limit depth c s (.error (.callDepthExceeded f limit)) := by
  obtain ⟨stepLimit, ended⟩ := returns
  have agrees := @answerAt_agrees_of_le functions strategy limit limit' depth c s le stepLimit
  obtain ⟨_, ⟨f, rfl⟩, cut⟩ | ⟨why, stopped, stopped'⟩ | ⟨y, _, given, given', rfl⟩ := agrees
  · exact .inr ⟨f, stepLimit, congrArg ExceptT.run cut⟩
  · exact .inl ⟨stepLimit, by rw [stopped, ← stopped', ended]⟩
  · exact .inl ⟨stepLimit, by rw [given, ← given', ended]⟩

/-- The limit on nested calls cuts evaluations off and has no other influence on them. What a call
gives under one limit it gives under every higher one, and nothing else, unless it is cut off. What
it gives under the higher one it gives under the lower one, unless it is cut off there. If all
functions that the call comes to are known and none of them calls itself, the call has a height, and
it is not cut off where the limit leaves room for the height, however many steps it takes. -/
theorem depth_limit_cuts_off (functions : Functions) (strategy : Strategy) :
    (∀ limit limit' depth c s r, limit ≤ limit' →
      Returns functions strategy limit depth c s r →
        (∀ f, r ≠ .error (.callDepthExceeded f limit)) →
          ∀ r', Returns functions strategy limit' depth c s r' ↔ r' = r) ∧
    (∀ limit limit' depth c s r, limit ≤ limit' →
      Returns functions strategy limit' depth c s r →
        Returns functions strategy limit depth c s r ∨
          ∃ f, Returns functions strategy limit depth c s (.error (.callDepthExceeded f limit))) ∧
    ((∀ f ∈ functions.items, f.Assembled) →
      ∀ c : Call, (∀ name ∈ c.functions, ∃ f, functions.find? name = some f) →
        (∀ f, c.Reaches functions f →
          ∀ name ∈ f.callees, ∃ g, functions.find? name = some g) →
        (∀ f, c.Reaches functions f → ¬ Relation.TransGen functions.Calls f f) →
          ∃ height, c.Height functions height ∧ (∀ n, c.Height functions n → n = height) ∧
            ∀ limit depth s f l, depth + height ≤ limit →
              ¬ Returns functions strategy limit depth c s (.error (.callDepthExceeded f l))) := by
  refine ⟨fun limit limit' depth c s r le returns whole r' => ⟨fun other => ?_, ?_⟩,
    fun _ _ _ _ _ _ => Returns.or_cut, fun assembled c named known acyclic => ?_⟩
  · exact other.unique (returns.of_le le whole)
  · rintro rfl
    exact returns.of_le le whole
  · obtain ⟨height, high⟩ := Call.exists_height named known acyclic
    refine ⟨height, high, fun n => high.unique, fun limit depth s f l le cut => ?_⟩
    obtain ⟨stepLimit, ended⟩ := cut
    have fits : c.Fits functions (limit - depth) := ⟨c, id, height, by simp, high, by omega⟩
    exact fits.failsWith assembled s _ ended f l rfl

/-- The successor of the successor is two calls high. A limit of one cuts it off. A limit of two
does not, so higher limits change nothing. -/
theorem depth_limit_cuts_off_twice :
    twice.Height arithmetic 2 ∧
      Returns arithmetic .interpret 1 0 twice (.ofInputs [1]) (.error (.callDepthExceeded "S" 1)) ∧
      (∀ f l, ¬ Returns arithmetic .interpret 2 0 twice (.ofInputs [1])
        (.error (.callDepthExceeded f l))) ∧
      ∀ limit, 2 ≤ limit →
        Returns arithmetic .interpret limit 0 twice (.ofInputs [1]) (.ok ⟨3, 10⟩) := by
  have found : arithmetic.find? "S" = some successor := rfl
  have once : Call.Height arithmetic ⟨"S", [.var firstInput]⟩ 1 :=
    @Call.Height.intro _ ⟨"S", _⟩ successor found (fun _ => 0) (List.forall_mem_nil _)
  have high : twice.Height arithmetic 2 :=
    @Call.Height.intro _ twice successor found (fun _ => 1) (List.forall_mem_singleton.2 once)
  have functions : twice.functions = ["S", "S"] := by
    simp [twice, Call.functions, Argument.functionsOf, Argument.functions]
  have silent (f : Program) : ¬ arithmetic.Calls successor f := by
    rintro ⟨name, called, -⟩
    exact List.not_mem_nil called
  have reached (f : Program) (reaches : twice.Reaches arithmetic f) : f = successor := by
    obtain ⟨name, named, g, at_name, leads⟩ := reaches
    obtain rfl : name = "S" := by simpa [functions] using named
    obtain rfl := Option.some.inj (found.symm.trans at_name)
    obtain rfl | ⟨h, calls, -⟩ := leads.cases_head
    · rfl
    · exact absurd calls (silent h)
  obtain ⟨monotone, -, bounded⟩ := depth_limit_cuts_off arithmetic .interpret
  obtain ⟨height, -, only, whole⟩ := bounded assembled_arithmetic twice
    (by simp [functions, found])
    (fun f reaches => by
      obtain rfl := reached f reaches
      exact List.forall_mem_nil _)
    (fun f reaches loops => by
      obtain rfl := reached f reaches
      obtain ⟨g, calls, -⟩ := Relation.TransGen.head'_iff.1 loops
      exact silent g calls)
  obtain rfl := only 2 high
  have given : Returns arithmetic .interpret 2 0 twice (.ofInputs [1]) (.ok ⟨3, 10⟩) :=
    ⟨3, by decide +kernel⟩
  refine ⟨high, ⟨3, by decide +kernel⟩, fun f l => whole 2 0 _ f l (Nat.le_refl _), ?_⟩
  exact fun limit le => (monotone 2 limit 0 twice _ _ le given (fun f => by simp) _).2 rfl

end Evaluator

end SLanguage
