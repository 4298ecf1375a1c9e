import SLanguage.Proofs.Calls.Entries

/-! Calls under other circumstances. What a call gives does not depend on the names that
hold its arguments, nor on the strategy as long as there are names for what it enters. It
takes more steps or more room for nested calls to get further, and never to get elsewhere. -/

namespace SLanguage

namespace Call

@[simp] theorem length_arguments_rename (c : Call) (var : Variable → Variable) :
    (c.rename var).arguments.length = c.arguments.length := by
  rw [rename, Argument.renameAll_eq_map, List.length_map]

/-- The calls among renamed arguments are renamed calls. -/
theorem exists_of_mem_rename {c inner : Call} {var : Variable → Variable}
    (mem : .call inner.function inner.arguments ∈ (c.rename var).arguments) :
    ∃ own : Call, .call own.function own.arguments ∈ c.arguments ∧ inner = own.rename var := by
  rw [rename, Argument.renameAll_eq_map] at mem
  obtain ⟨a, occurs, eq⟩ := List.mem_map.1 mem
  cases a with
  | var v => cases eq
  | call f as =>
    obtain ⟨name, rest⟩ := Argument.call.inj eq
    refine ⟨⟨f, as⟩, occurs, ?_⟩
    rw [rename, name, rest]

theorem vars_subset {i : Instruction} {c : Call} (calls : i.op.call? = some c) :
    ∀ v ∈ c.vars, v ∈ i.vars := by
  intro v mem
  refine List.mem_cons_of_mem _ ?_
  cases op : i.op <;> rw [op] at calls <;> cases calls <;> exact mem

end Call

section Failures

variable {answering : Answering} {p : Program} {P : RunError → Prop}

/-- A program fails only as its calls do. -/
theorem Machine.step_failsWith (assembled : p.Assembled)
    (answers : ∀ i ∈ p.instructions.toList, ∀ c, i.op.call? = some c →
      ∀ s, (answering c s).FailsWith P) (m : Machine) : (m.step answering p).FailsWith P := by
  cases next : m.next? with
  | none =>
    rw [step_of_halted next]
    exact .of_pure none
  | some k =>
    cases at_k : p.instructions[k]? with
    | none =>
      rw [step_of_no_instruction next at_k]
      exact .of_pure none
    | some i =>
      have mem : i ∈ p.instructions.toList :=
        List.mem_of_getElem? (Array.getElem?_toList.trans at_k)
      rw [step_of_instruction next at_k]
      refine .bind ?_ fun e ran => ?_
      · cases called : i.op.call? with
        | none =>
          rw [Instruction.effect_of_no_call called]
          exact .of_pure _
        | some c =>
          rw [Instruction.effect_of_call called]
          exact .bind (answers i mem c called m.store) fun y _ => .of_pure _
      · obtain ⟨y, rfl⟩ := Instruction.exists_reaction ran
        obtain ⟨next?, followed⟩ := assembled.follow_total at_k Instruction.jump_reaction
        rw [followed]
        exact .bind (.of_pure next?) fun _ _ => .of_pure _

theorem Machine.toHalt_failsWith (assembled : p.Assembled)
    (answers : ∀ i ∈ p.instructions.toList, ∀ c, i.op.call? = some c →
      ∀ s, (answering c s).FailsWith P) (limit : Nat) (m : Machine) :
    (m.toHalt answering p limit).FailsWith P := by
  induction limit generalizing m with
  | zero => exact .of_unfinished
  | succ limit ih =>
    rw [toHalt_succ]
    refine .bind (step_failsWith assembled answers m) fun v? _ => ?_
    cases v? with
    | none => exact .of_pure m
    | some v => exact ih v.after

end Failures

namespace Evaluator

/-- Answering a call, with so much room, comes to run a callee for a call. Arguments are
read up to the first that fails, and bodies run as the table has them. -/
inductive Enters (ev : Evaluator) : Nat → Call → Store → Call → Program → Prop where
  | callee {room : Nat} {c : Call} {s : Store} {yields : List Yield} {callee : Program}
      (read : arguments (ev.answer room) s c.arguments = pure yields)
      (found : ev.functions.find? c.function = some callee) :
      Enters ev (room + 1) c s c callee
  | argument {room : Nat} {c inner : Call} {s : Store} {before after : List Argument}
      {yields : List Yield} {last : Call} {callee : Program}
      (parts : c.arguments = before ++ .call inner.function inner.arguments :: after)
      (read : arguments (ev.answer room) s before = pure yields)
      (nested : Enters ev room inner s last callee) :
      Enters ev (room + 1) c s last callee
  | body {room : Nat} {c inner : Call} {s : Store} {yields : List Yield}
      {entered : Program} {m : Machine} {k : Nat} {i : Instruction} {last : Call}
      {callee : Program}
      (read : arguments (ev.answer room) s c.arguments = pure yields)
      (found : ev.functions.find? c.function = some entered)
      (leads : (Machine.start entered (.ofInputs (yields.map Yield.value))).Leads
        (ev.answer room) entered m)
      (next : m.next? = some k) (at_k : entered.instructions[k]? = some i)
      (calls : i.op.call? = some inner) (nested : Enters ev room inner m.store last callee) :
      Enters ev (room + 1) c s last callee

section Arguments

/-- The value of one argument. -/
def reading (answering : Answering) (s : Store) : Argument → Attempt RunError Yield
  | .var v => pure ⟨s.get v, 0⟩
  | .call f inner => answering ⟨f, inner⟩ s

theorem arguments_cons (answering : Answering) (s : Store) (a : Argument)
    (as : List Argument) :
    arguments answering s (a :: as) = (do
      let y ← reading answering s a
      return y :: (← arguments answering s as)) := by
  cases a <;> rfl

variable {answering answering' : Answering} {s s' : Store} {as : List Argument}

theorem arguments_cons_eq_pure {a : Argument} {yields : List Yield} :
    arguments answering s (a :: as) = pure yields ↔
      ∃ y rest, reading answering s a = pure y ∧ arguments answering s as = pure rest ∧
        yields = y :: rest := by
  rw [arguments_cons]
  constructor
  · intro read
    obtain ⟨y, first, read⟩ := Attempt.run_bind_eq_ok.1 (congrArg ExceptT.run read)
    obtain ⟨rest, second, eq⟩ := Attempt.run_bind_eq_ok.1 read
    exact ⟨y, rest, first, second, by simpa [eq_comm] using eq⟩
  · rintro ⟨y, rest, first, second, rfl⟩
    rw [first, second]
    rfl

theorem length_of_arguments {yields : List Yield}
    (read : arguments answering s as = pure yields) : yields.length = as.length := by
  induction as generalizing yields with
  | nil =>
    rw [← Attempt.pure_injective read]
    rfl
  | cons a as ih =>
    obtain ⟨y, rest, -, others, rfl⟩ := arguments_cons_eq_pure.1 read
    rw [List.length_cons, List.length_cons, ih others]

/-- Arguments are read alike if the calls among them are answered alike. -/
theorem arguments_agree {cut : Option RunError → Prop} {var : Variable → Variable}
    (mirrors : Mirrors (Argument.variablesOf as) var s s')
    (calls : ∀ before inner after yields,
      as = before ++ .call inner.function inner.arguments :: after →
      arguments answering s before = pure yields → Mirrors inner.vars var s s' →
      Attempt.Agrees cut Eq (answering inner s) (answering' (inner.rename var) s')) :
    Attempt.Agrees cut Eq (arguments answering s as)
      (arguments answering' s' (Argument.renameAll var as)) := by
  induction as with
  | nil => exact .of_pure rfl
  | cons a as ih =>
    have head : Mirrors a.vars var s s' := fun v mem => mirrors v (List.mem_append_left _ mem)
    have first : Attempt.Agrees cut Eq (reading answering s a)
        (reading answering' s' (a.rename var)) := by
      cases a with
      | var v =>
        refine .of_pure ?_
        rw [head v (List.mem_singleton_self v)]
      | call f inner => exact calls [] ⟨f, inner⟩ as [] rfl rfl head
    rw [Argument.renameAll, arguments_cons, arguments_cons]
    refine first.with_values.bind ?_
    rintro y _ ⟨rfl, read, -⟩
    refine (ih (fun v mem => mirrors v (List.mem_append_right _ mem)) ?_).bind ?_
    · intro before inner after yields parts read'
      exact calls (a :: before) inner after (y :: yields) (by rw [parts]; rfl)
        (arguments_cons_eq_pure.2 ⟨y, yields, read, read', rfl⟩)
    · rintro rest _ rfl
      exact .of_pure rfl

end Arguments

/-- A call gives the same whatever the strategy and the names that hold its arguments. With
more steps and more room it gives the same or more. -/
theorem answer_agrees (ev ev' : Evaluator) {cut : Option RunError → Prop}
    (functions : ev'.functions = ev.functions) (interpret : ev.strategy = .interpret)
    (depthLimit : ev'.depthLimit = ev.depthLimit)
    (assembled : ∀ f ∈ ev.functions.items, f.Assembled)
    (steps : ev.stepLimit ≤ ev'.stepLimit) (short : ev.stepLimit < ev'.stepLimit → cut none)
    {room room' : Nat} (le : room ≤ room')
    (deep : room < room' → ∀ f, cut (some (.callDepthExceeded f ev.depthLimit)))
    {c : Call} {s s' : Store} {var : Variable → Variable} (mirrors : Mirrors c.vars var s s')
    (names : ev'.strategy = .inline → ∀ last callee, ev.Enters room c s last callee →
      last.namesNeeded callee ≤ Serial.last) :
    Attempt.Agrees cut Eq (ev.answer room c s) (ev'.answer room' (c.rename var) s') := by
  induction room generalizing room' c s s' var with
  | zero =>
    cases room' with
    | zero =>
      rw [answer, answer, depthLimit]
      exact .of_stop (some _)
    | succ room' => exact .of_cut (deep (Nat.succ_pos room') c.function) _
  | succ room ih =>
    obtain ⟨room', rfl⟩ : ∃ n, room' = n + 1 := ⟨room' - 1, by omega⟩
    have deep : room < room' → ∀ f, cut (some (.callDepthExceeded f ev.depthLimit)) :=
      fun lt => deep (by omega)
    rw [answer, answer]
    refine (arguments_agree mirrors ?_).with_values.bind ?_
    · intro before inner after yields parts read mirrors
      exact ih (by omega) deep mirrors fun inline last callee enters =>
        names inline last callee (.argument parts read enters)
    · rintro yields _ ⟨rfl, read, -⟩
      cases found : ev.functions.find? c.function with
      | none =>
        have found' : ev'.functions.find? (c.rename var).function = none := functions ▸ found
        rw [entry_of_unknown found, entry_of_unknown found']
        exact .of_stop (some _)
      | some callee =>
        have length : (yields.map Yield.value).length = (c.rename var).arguments.length := by
          rw [List.length_map, length_of_arguments read, Call.length_arguments_rename]
        have enough : ev'.strategy = .inline →
            (c.rename var).namesNeeded callee ≤ Serial.last := by
          intro inline
          rw [Call.namesNeeded, Call.length_arguments_rename]
          exact names inline c callee (.callee read found)
        have found' : ev'.functions.find? (c.rename var).function = some callee :=
          functions ▸ found
        obtain ⟨q, s₁, var₁, label, entry, size, copy, start⟩ :=
          exists_entry (functions ▸ assembled) found' enough length
        have callee_assembled := assembled callee (Functions.mem_items_of_find? found)
        rw [entry_of_interpret interpret found, entry]
        refine (copy.toHalt_agrees callee_assembled steps short (Machine.inRange_start _ _)
          (Machine.shadows_start size start) rfl ?_).bind ?_
        · intro m leads k i inner s₂ next at_k calls held
          refine ih (by omega) deep (fun v mem => held v ?_) fun inline last entered enters =>
            names inline last entered (.body read found leads next at_k calls enters)
          exact callee_assembled.vars_subset at_k v (Call.vars_subset calls v mem)
        · rintro m m' ⟨values, cycles⟩
          refine .of_pure ?_
          rw [values .result (List.mem_cons_self ..), cycles]

theorem arguments_failsWith {answering : Answering} {P : RunError → Prop} {s : Store}
    {as : List Argument}
    (answers : ∀ inner : Call, .call inner.function inner.arguments ∈ as →
      (answering inner s).FailsWith P) : (arguments answering s as).FailsWith P := by
  induction as with
  | nil => exact .of_pure _
  | cons a as ih =>
    rw [arguments_cons]
    have others := ih fun inner mem => answers inner (List.mem_cons_of_mem _ mem)
    refine .bind ?_ fun y _ => .bind others fun rest _ => .of_pure _
    cases a with
    | var v => exact .of_pure _
    | call f inner => exact answers ⟨f, inner⟩ (List.mem_cons_self ..)

/-- Whatever goes for a call and for all calls below it, with one level less for each of them,
settles the reasons for which the call fails. -/
theorem answer_failsWith_of {ev : Evaluator} (Good : Nat → Call → Prop)
    (assembled : ∀ f ∈ ev.functions.items, f.Assembled) {P : RunError → Prop}
    (deep : ∀ c, Good 0 c → P (.callDepthExceeded c.function ev.depthLimit))
    (unknown : ∀ room c, Good (room + 1) c → ev.functions.find? c.function = none →
      P (.unknownFunction c.function))
    (names : ev.strategy = .inline → ∀ out, P (.expand (.names out)))
    (argument : ∀ room c (inner : Call), Good (room + 1) c →
      .call inner.function inner.arguments ∈ c.arguments → Good room inner)
    (body : ∀ room c callee i inner var, Good (room + 1) c →
      ev.functions.find? c.function = some callee → i ∈ callee.instructions.toList →
        i.op.call? = some inner → Good room (inner.rename var))
    (room : Nat) {c : Call} (good : Good room c) (s : Store) :
    (ev.answer room c s).FailsWith P := by
  induction room generalizing c s with
  | zero => exact .of_throw (deep c good)
  | succ room ih =>
    rw [answer]
    refine .bind (arguments_failsWith fun inner mem => ih (argument room c inner good mem) s)
      fun yields _ => ?_
    cases entry : ev.entry c (yields.map Yield.value) with
    | error cause =>
      refine .bind (.of_throw ?_) fun e given => absurd given.symm (Attempt.pure_ne_stop e (some _))
      obtain ⟨missing, rfl⟩ | ⟨inline, out, rfl⟩ := entry_eq_error assembled entry
      · exact unknown room c good missing
      · exact names inline out
    | ok e =>
      obtain ⟨callee, found, runs⟩ := runs_of_entry assembled entry
      refine .bind (.of_pure e) fun entered eq => ?_
      obtain rfl := Attempt.pure_injective eq
      refine .bind ?_ fun m _ => .of_pure _
      refine Machine.toHalt_failsWith runs.assembled (fun j mem inner calls => ?_) _ _
      obtain ⟨i, occurs, own, var, made, rfl⟩ := runs.calls j mem inner calls
      exact ih (body room c callee i own var good found occurs made)

/-- A call fails only for want of a function, of room, or of names to splice a callee. -/
theorem answer_failsWith (ev : Evaluator) (assembled : ∀ f ∈ ev.functions.items, f.Assembled)
    (room : Nat) (c : Call) (s : Store) :
    (ev.answer room c s).FailsWith fun e =>
      (∃ f, e = .unknownFunction f) ∨ (∃ f, e = .callDepthExceeded f ev.depthLimit) ∨
        ev.strategy = .inline ∧ ∃ out, e = .expand (.names out) := by
  refine answer_failsWith_of (fun _ _ => True) assembled ?_ ?_ ?_ ?_ ?_ room trivial s
  · exact fun c _ => .inr (.inl ⟨c.function, rfl⟩)
  · exact fun _ c _ _ => .inl ⟨c.function, rfl⟩
  · exact fun inline out => .inr (.inr ⟨inline, out, rfl⟩)
  · exact fun _ _ _ _ _ => trivial
  · exact fun _ _ _ _ _ _ _ _ _ _ => trivial

/-- More steps and more room only help calls that are cut short for the want of them. What is
entered does not depend on either. -/
theorem answer_agrees_of_limits (ev ev' : Evaluator) {cut : Option RunError → Prop}
    (functions : ev'.functions = ev.functions) (strategy : ev'.strategy = ev.strategy)
    (steps : ev.stepLimit ≤ ev'.stepLimit) (short : ev.stepLimit < ev'.stepLimit → cut none)
    {room room' : Nat} (le : room ≤ room')
    (deep : room' = room ∧ ev'.depthLimit = ev.depthLimit ∨
      ∀ f, cut (some (.callDepthExceeded f ev.depthLimit))) (c : Call) (s : Store) :
    Attempt.Agrees cut Eq (ev.answer room c s) (ev'.answer room' c s) := by
  induction room generalizing room' c s with
  | zero =>
    obtain ⟨rfl, limit⟩ | deep := deep
    · rw [answer, answer, limit]
      exact .of_stop (some _)
    · exact .of_cut (deep c.function) _
  | succ room ih =>
    obtain ⟨room', rfl⟩ : ∃ n, room' = n + 1 := ⟨room' - 1, by omega⟩
    have inner : ∀ c s, Attempt.Agrees cut Eq (ev.answer room c s) (ev'.answer room' c s) :=
      fun c s => ih (by omega) (deep.imp_left fun same => ⟨by omega, same.2⟩) c s
    have read : Attempt.Agrees cut Eq (arguments (ev.answer room) s c.arguments)
        (arguments (ev'.answer room') s (Argument.renameAll id c.arguments)) := by
      refine arguments_agree (fun _ _ => rfl) fun _ nested _ _ _ _ _ => ?_
      rw [Call.rename_id]
      exact inner nested s
    have entered (values : List Nat) : ev'.entry c values = ev.entry c values := by
      rw [entry, entry, functions, strategy]
    rw [Argument.renameAll_id] at read
    rw [answer, answer]
    refine read.bind ?_
    rintro yields _ rfl
    rw [entered]
    refine Attempt.Agrees.bind (.refl _) ?_
    rintro e _ rfl
    refine (Machine.toHalt_agrees (fun _ _ c _ s => inner c s) steps short _).bind ?_
    rintro m _ rfl
    exact .of_pure rfl

theorem answer_agrees_of_le (ev : Evaluator) {stepLimit : Nat} (le : ev.stepLimit ≤ stepLimit)
    (room : Nat) (c : Call) (s : Store) :
    Attempt.Agrees (· = none) Eq (ev.answer room c s)
      (({ ev with stepLimit } : Evaluator).answer room c s) := by
  refine answer_agrees_of_limits ev { ev with stepLimit } rfl rfl le ?_ (Nat.le_refl _)
    (.inl ⟨rfl, rfl⟩) c s
  exact fun _ => rfl

/-- What a call gives within some steps it gives within more. -/
theorem answer_of_le (ev : Evaluator) {stepLimit : Nat} (le : ev.stepLimit ≤ stepLimit)
    {room : Nat} {c : Call} {s : Store} {r : Except RunError Yield}
    (ended : (ev.answer room c s).run = some r) :
    (({ ev with stepLimit } : Evaluator).answer room c s).run = some r :=
  (answer_agrees_of_le ev le room c s).run_eq ended

/-- What a call comes to whose callee is known. -/
theorem answer_of_found {ev : Evaluator} (interpret : ev.strategy = .interpret) (room : Nat)
    {c : Call} {callee : Program} (found : ev.functions.find? c.function = some callee)
    (s : Store) :
    ev.answer (room + 1) c s = (do
      let yields ← arguments (ev.answer room) s c.arguments
      let m ← Machine.toHalt (ev.answer room) callee ev.stepLimit
        (.start callee (.ofInputs (yields.map Yield.value)))
      return {
        value := m.store.get .result
        cycles := Amount.sum ((yields.map Yield.cycles).foldl Amount.sum 0) m.cycles }) := by
  rw [answer]
  refine bind_congr fun yields => ?_
  rw [entry_of_interpret interpret found]
  rfl

/-- The call has failed for want of room. -/
def TooDeep (ev : Evaluator) (why : Option RunError) : Prop :=
  ∃ f, why = some (.callDepthExceeded f ev.depthLimit)

/-- Another level of room only helps calls that are too deep. -/
theorem answer_succ (ev : Evaluator) (interpret : ev.strategy = .interpret)
    (assembled : ∀ f ∈ ev.functions.items, f.Assembled) (room : Nat) {c : Call} {s s' : Store}
    {var : Variable → Variable} (mirrors : Mirrors c.vars var s s') :
    Attempt.Agrees ev.TooDeep Eq (ev.answer room c s)
      (ev.answer (room + 1) (c.rename var) s') := by
  refine answer_agrees ev ev rfl interpret rfl assembled (Nat.le_refl _) ?_
    (Nat.le_succ room) ?_ mirrors ?_
  · exact fun lt => absurd lt (Nat.lt_irrefl _)
  · exact fun _ f => ⟨f, rfl⟩
  · exact fun inline => Strategy.noConfusion (interpret.symm.trans inline)

theorem arguments_succ (ev : Evaluator) (interpret : ev.strategy = .interpret)
    (assembled : ∀ f ∈ ev.functions.items, f.Assembled) (room : Nat) (s : Store)
    (as : List Argument) :
    Attempt.Agrees ev.TooDeep Eq (arguments (ev.answer room) s as)
      (arguments (ev.answer (room + 1)) s as) := by
  have agrees : Attempt.Agrees ev.TooDeep Eq (arguments (ev.answer room) s as)
      (arguments (ev.answer (room + 1)) s (Argument.renameAll id as)) :=
    arguments_agree (fun _ _ => rfl) fun _ _ _ _ _ _ mirrors =>
      answer_succ ev interpret assembled room mirrors
  rwa [Argument.renameAll_id] at agrees

end Evaluator

/-- The answer to a call depends on the variables in its arguments. -/
def Answering.IsLocal (answering : Answering) : Prop :=
  ∀ c s s', Mirrors c.vars id s s' → answering c s = answering c s'

theorem Answering.IsLocal.arguments {answering : Answering} (isLocal : answering.IsLocal)
    {s s' : Store} {as : List Argument} (mirrors : Mirrors (Argument.variablesOf as) id s s') :
    Evaluator.arguments answering s as = Evaluator.arguments answering s' as := by
  have agrees : Attempt.Agrees (fun _ => False) Eq (Evaluator.arguments answering s as)
      (Evaluator.arguments answering s' (Argument.renameAll id as)) := by
    refine Evaluator.arguments_agree mirrors fun _ inner _ _ _ _ mirrors => ?_
    rw [Call.rename_id, isLocal inner s s' mirrors]
    exact .refl _
  rw [Argument.renameAll_id] at agrees
  exact agrees.eq

theorem Evaluator.isLocal_answer (ev : Evaluator) (room : Nat) :
    Answering.IsLocal (ev.answer room) := by
  induction room with
  | zero => exact fun _ _ _ _ => rfl
  | succ room ih =>
    intro c s s' mirrors
    rw [answer, answer, ih.arguments mirrors]

/-- An instruction does the same where its variables have the same values. -/
theorem Answering.IsLocal.effect {answering : Answering} (isLocal : answering.IsLocal)
    {i : Instruction} {s s' : Store} (mirrors : Mirrors i.vars id s s') :
    Attempt.Agrees (fun _ => False) (fun e e' => ∃ y, e = i.reaction s y ∧ e' = i.reaction s' y)
      (i.effect answering s) (i.effect answering s') := by
  refine Instruction.effect_agrees i.op.rename_id.symm fun c calls => ?_
  rw [Call.rename_id, isLocal c s s' fun v mem => mirrors v (Call.vars_subset calls v mem)]
  exact .refl _

end SLanguage
