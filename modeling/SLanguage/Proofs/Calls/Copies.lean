import SLanguage.Lowering.Frame
import SLanguage.Proofs.Calls.Agreement

/-! Copies of programs. The instructions of a program may stand in another program under
other names, from some place on. As long as the calls they make are answered alike, the
two move in step: the copy holds the same values under its names, pays the same cycles,
and is at the same place, until the body ends. -/

namespace SLanguage

mutual

theorem Argument.rename_id : ∀ a : Argument, a.rename id = a
  | .var _ => rfl
  | .call f as => by rw [Argument.rename, Argument.renameAll_id as]

theorem Argument.renameAll_id : ∀ as : List Argument, Argument.renameAll id as = as
  | [] => rfl
  | a :: as => by rw [Argument.renameAll, Argument.rename_id a, Argument.renameAll_id as]

end

@[simp] theorem Call.rename_id (c : Call) : c.rename id = c := by
  rw [rename, Argument.renameAll_id]

theorem Operation.rename_id (op : Operation) : op.rename id id = op := by
  cases op <;> simp [rename]

@[simp] theorem Operation.call?_rename (var : Variable → Variable) (label : Label → Label)
    (op : Operation) : (op.rename var label).call? = op.call?.map (Call.rename var) := by
  cases op <;> rfl

mutual

theorem Argument.vars_rename (var : Variable → Variable) :
    ∀ a : Argument, (a.rename var).vars = a.vars.map var
  | .var _ => rfl
  | .call _ as => Argument.variablesOf_rename var as

theorem Argument.variablesOf_rename (var : Variable → Variable) : ∀ as : List Argument,
    Argument.variablesOf (Argument.renameAll var as) = (Argument.variablesOf as).map var
  | [] => rfl
  | a :: as => by
    rw [Argument.renameAll, Argument.variablesOf, Argument.vars_rename var a,
      Argument.variablesOf_rename var as, Argument.variablesOf, List.map_append]

end

theorem Instruction.vars_rename (var : Variable → Variable) (label : Label → Label)
    (i : Instruction) : (i.rename var label).vars = i.vars.map var := by
  refine congrArg (var i.subject :: ·) ?_
  cases op : i.op <;> simp [rename, Operation.rename, Operation.operands, op, Call.vars,
    Call.rename, Argument.variablesOf_rename]

/-- The values of the variables, held in another store under other names. -/
def Mirrors (vars : List Variable) (var : Variable → Variable) (s s' : Store) : Prop :=
  ∀ v ∈ vars, s'.get (var v) = s.get v

theorem Mirrors.set {vars : List Variable} {var : Variable → Variable} {s s' : Store}
    (h : Mirrors vars var s s')
    (injective : ∀ v ∈ vars, ∀ w ∈ vars, var v = var w → v = w)
    {v : Variable} (mem : v ∈ vars) (n : Nat) :
    Mirrors vars var (s.set v n) (s'.set (var v) n) := by
  intro w mem_w
  rw [Store.get_set, Store.get_set]
  by_cases eq : v = w
  · rw [if_pos eq, if_pos (congrArg var eq)]
  · rw [if_neg eq, if_neg fun same => eq (injective v mem w mem_w same)]
    exact h w mem_w

namespace Instruction

/-- The effect of an instruction, given what the call that it makes gives back. -/
def reaction (i : Instruction) (s : Store) (y : Yield) : Effect :=
  let value := s.get i.subject
  let jumpIf (condition : Bool) (target : Label) : Effect :=
    { store := s, jump := if condition then target else .empty }
  match i.op with
  | .increase => { store := s.set i.subject (min (value + 1) Store.largest) }
  | .decrease => { store := s.set i.subject (value - 1) }
  | .neutral => { store := s }
  | .zeroVariable => { store := s.set i.subject 0 }
  | .assignment source => { store := s.set i.subject (s.get source) }
  | .constantAssignment k => { store := s.set i.subject (min k.toNat Store.largest) }
  | .gotoLabel target => { store := s, jump := target }
  | .jumpNotZero target => jumpIf (value ≠ 0) target
  | .jumpZero target => jumpIf (value = 0) target
  | .jumpEqualConstant k target => jumpIf (value = k.toNat) target
  | .jumpEqualVariable other target => jumpIf (value = s.get other) target
  | .quote _ => { store := s.set i.subject y.value, callCycles := y.cycles }
  | .jumpEqualFunction _ target => { jumpIf (value = y.value) target with callCycles := y.cycles }

theorem effect_of_call {answering : Answering} {i : Instruction} {s : Store} {c : Call}
    (calls : i.op.call? = some c) :
    i.effect answering s = (answering c s >>= fun y => pure (i.reaction s y)) := by
  unfold effect reaction
  cases op : i.op <;> simp_all [Operation.call?]

theorem effect_of_no_call {answering : Answering} {i : Instruction} {s : Store}
    (calls : i.op.call? = none) : i.effect answering s = pure (i.reaction s ⟨0, 0⟩) := by
  unfold effect reaction
  cases op : i.op <;> simp_all [Operation.call?]

/-- Every effect is a reaction to some yield. -/
theorem exists_reaction {answering : Answering} {i : Instruction} {s : Store} {e : Effect}
    (ran : i.effect answering s = pure e) : ∃ y, e = i.reaction s y := by
  cases calls : i.op.call? with
  | none =>
    rw [effect_of_no_call calls] at ran
    exact ⟨_, (Attempt.pure_injective ran).symm⟩
  | some c =>
    rw [effect_of_call calls] at ran
    obtain ⟨y, -, ran⟩ := Attempt.run_bind_eq_ok.1 (congrArg ExceptT.run ran)
    cases ran
    exact ⟨y, rfl⟩

variable {i j : Instruction} {s s' : Store} {y : Yield}

/-- Only the subject is written. -/
theorem get_reaction_of_ne {v : Variable} (ne : i.subject ≠ v) :
    (i.reaction s y).store.get v = s.get v := by
  unfold reaction
  cases i.op <;> simp [Store.get_set_of_ne _ _ ne]

/-- A jump goes to the target or falls through. -/
theorem jump_reaction :
    (i.reaction s y).jump = .empty ∨ i.target? = some (i.reaction s y).jump := by
  unfold reaction target?
  cases i.op <;> simp only [Operation.target?, true_or, or_true]
  all_goals split <;> simp

/-- An instruction under other names does the same to other variables. -/
theorem reaction_renamed {vars : List Variable} {var : Variable → Variable}
    {label : Label → Label} (subject : j.subject = var i.subject)
    (op : j.op = i.op.rename var label) (empty : label .empty = .empty)
    (injective : ∀ v ∈ vars, ∀ w ∈ vars, var v = var w → v = w)
    (mem : ∀ v ∈ i.vars, v ∈ vars) (mirrors : Mirrors vars var s s') :
    Mirrors vars var (i.reaction s y).store (j.reaction s' y).store ∧
      (j.reaction s' y).jump = label (i.reaction s y).jump ∧
      (j.reaction s' y).callCycles = (i.reaction s y).callCycles := by
  have own : i.subject ∈ vars := mem _ (List.mem_cons_self ..)
  have value : s'.get (var i.subject) = s.get i.subject := mirrors _ own
  unfold reaction
  rw [op, subject]
  cases shape : i.op with
  | assignment source =>
    have read : s'.get (var source) = s.get source :=
      mirrors _ (mem _ (by simp [Instruction.vars, shape, Operation.operands]))
    simp [Operation.rename, read, empty, mirrors.set injective own]
  | jumpEqualVariable other target =>
    have read : s'.get (var other) = s.get other :=
      mirrors _ (mem _ (by simp [Instruction.vars, shape, Operation.operands]))
    simp [Operation.rename, value, read, apply_ite label, empty, mirrors]
  | _ => simp [Operation.rename, value, apply_ite label, empty, mirrors, mirrors.set injective own]

end Instruction

namespace Machine

variable {answering answering' : Answering} {p : Program} {cut : Option RunError → Prop}

/-- A step depends on the answer to the call that it makes, if it makes one. -/
theorem step_agrees {m : Machine}
    (calls : ∀ k i c, m.next? = some k → p.instructions[k]? = some i → i.op.call? = some c →
      Attempt.Agrees cut Eq (answering c m.store) (answering' c m.store)) :
    Attempt.Agrees cut Eq (m.step answering p) (m.step answering' p) := by
  cases next : m.next? with
  | none =>
    rw [step_of_halted next, step_of_halted next]
    exact .of_pure rfl
  | some k =>
    cases at_k : p.instructions[k]? with
    | none =>
      rw [step_of_no_instruction next at_k, step_of_no_instruction next at_k]
      exact .of_pure rfl
    | some i =>
      have effect : Attempt.Agrees cut Eq (i.effect answering m.store)
          (i.effect answering' m.store) := by
        cases called : i.op.call? with
        | none =>
          rw [Instruction.effect_of_no_call called, Instruction.effect_of_no_call called]
          exact .of_pure rfl
        | some c =>
          rw [Instruction.effect_of_call called, Instruction.effect_of_call called]
          refine (calls k i c next at_k called).bind ?_
          rintro y _ rfl
          exact .of_pure rfl
      rw [step_of_instruction next at_k, step_of_instruction next at_k]
      refine effect.bind ?_
      rintro e _ rfl
      exact .refl _

theorem step_congr {m : Machine}
    (calls : ∀ k i c, m.next? = some k → p.instructions[k]? = some i → i.op.call? = some c →
      answering c m.store = answering' c m.store) : m.step answering p = m.step answering' p := by
  have agrees : Attempt.Agrees (fun _ => False) Eq (m.step answering p) (m.step answering' p) := by
    refine step_agrees fun k i c next at_k called => ?_
    rw [calls k i c next at_k called]
    exact .refl _
  exact agrees.eq

/-- So does a run, on the answers to the calls of the program. -/
theorem toHalt_agrees
    (calls : ∀ i ∈ p.instructions.toList, ∀ c, i.op.call? = some c → ∀ s,
      Attempt.Agrees cut Eq (answering c s) (answering' c s))
    {limit limit' : Nat} (le : limit ≤ limit') (short : limit < limit' → cut none) (m : Machine) :
    Attempt.Agrees cut Eq (m.toHalt answering p limit) (m.toHalt answering' p limit') := by
  induction limit generalizing limit' m with
  | zero =>
    cases limit' with
    | zero => exact .of_stop none
    | succ n => exact .of_cut (short (Nat.succ_pos n)) _
  | succ limit ih =>
    obtain ⟨limit', rfl⟩ : ∃ n, limit' = n + 1 := ⟨limit' - 1, by omega⟩
    rw [toHalt_succ, toHalt_succ]
    refine (step_agrees fun k i c _ at_k called => calls i ?_ c called m.store).bind ?_
    · exact List.mem_of_getElem? (Array.getElem?_toList.trans at_k)
    · rintro v? _ rfl
      cases v? with
      | none => exact .refl _
      | some v => exact ih (by omega) (fun lt => short (by omega)) v.after

end Machine

/-- Where the copy goes on: as far from its start as the program that it copies, and
somewhere else once that has halted. -/
def placed (offset : Nat) (after : Option Nat) : Option Nat → Option Nat
  | none => after
  | some k => some (offset + k)

/-- The second program holds the instructions of the first from an offset on, under other
names. Its jumps go where theirs go. -/
structure Program.Copy (p q : Program) (var : Variable → Variable) (label : Label → Label)
    (offset : Nat) (after : Option Nat) : Prop where
  injective : ∀ v ∈ p.vars, ∀ w ∈ p.vars, var v = var w → v = w
  empty : label .empty = .empty
  code : ∀ {k i}, p.instructions[k]? = some i → ∃ j, q.instructions[offset + k]? = some j ∧
    j.subject = var i.subject ∧ j.op = i.op.rename var label
  follow : ∀ {k i l next?}, p.instructions[k]? = some i →
    l = .empty ∨ i.target? = some l → p.follow k l = .ok next? →
      q.follow (offset + k) (label l) = .ok (placed offset after next?)

/-- The second machine runs the copy and stands where the first does. -/
structure Machine.Shadows (vars : List Variable) (var : Variable → Variable) (offset : Nat)
    (after : Option Nat) (m m' : Machine) : Prop where
  next : m'.next? = placed offset after m.next?
  store : Mirrors vars var m.store m'.store

/-- A program is a copy of itself. -/
theorem Program.Copy.refl (p : Program) : p.Copy p id id 0 none where
  injective _ _ _ _ eq := eq
  empty := rfl
  code {k i} at_k := ⟨i, by simpa using at_k, rfl, by cases i.op <;> simp [Operation.rename]⟩
  follow {k i l next?} _ _ followed := by
    rw [Nat.zero_add, id, followed]
    cases next? <;> simp [placed]

namespace Program.Assembled

variable {p : Program} {k : Nat} {i : Instruction}

theorem vars_subset (h : p.Assembled) (at_k : p.instructions[k]? = some i) :
    ∀ v ∈ i.vars, v ∈ p.vars := fun _ occurs =>
  h.mem_vars_iff.2 (.inr ⟨i, List.mem_of_getElem? (Array.getElem?_toList.trans at_k), occurs⟩)

/-- The jumps of an assembled program lead somewhere. -/
theorem follow_total (h : p.Assembled) (at_k : p.instructions[k]? = some i) {l : Label}
    (target : l = .empty ∨ i.target? = some l) : ∃ next?, p.follow k l = .ok next? := by
  have mem : i ∈ p.instructions.toList := List.mem_of_getElem? (by simpa using at_k)
  cases l with
  | empty => exact ⟨_, rfl⟩
  | exit => exact ⟨none, rfl⟩
  | numbered n =>
    obtain ⟨j, found⟩ := h.exists_position? mem (target.resolve_left Label.noConfusion)
    exact ⟨some j, by simp [follow, found]⟩

end Program.Assembled

theorem Program.follow_empty {p : Program} {k : Nat} (lt : k + 1 < p.size) :
    p.follow k .empty = .ok (some (k + 1)) := by
  rw [follow, if_pos lt]

theorem Program.follow_numbered_eq_ok {p : Program} {k : Nat} {n : Serial}
    {next? : Option Nat} :
    p.follow k (.numbered n) = .ok next? ↔
      ∃ j, p.position? (.numbered n) = some j ∧ next? = some j := by
  rw [follow]
  cases h : p.position? (.numbered n) <;> simp [eq_comm]

/-- Renamed code is a copy if the names of its labels stay apart, and if what would end
the program, be it a jump to `EXIT` or its last instruction, goes on after the copy. -/
theorem Program.Copy.of_code {p q : Program} {var : Variable → Variable}
    {label : Label → Label} {offset : Nat} {after : Option Nat}
    (assembled : p.Assembled) (assembled' : q.Assembled)
    (injective : ∀ v ∈ p.vars, ∀ w ∈ p.vars, var v = var w → v = w)
    (empty : label .empty = .empty)
    (code : ∀ {k i}, p.instructions[k]? = some i → ∃ j, q.instructions[offset + k]? = some j ∧
      j.subject = var i.subject ∧ j.op = i.op.rename var label ∧
      (i.label ≠ .empty → j.label = label i.label))
    (numbered : ∀ {k : Nat} {i : Instruction} {n : Serial}, p.instructions[k]? = some i →
      i.label = .numbered n → ∃ m, label (.numbered n) = .numbered m)
    (exit : ∀ {k i}, p.instructions[k]? = some i → i.target? = some .exit →
      q.follow (offset + k) (label .exit) = .ok after)
    (ends : ∀ {k}, k + 1 = p.size → q.follow (offset + k) .empty = .ok after) :
    p.Copy q var label offset after where
  injective := injective
  empty := empty
  code {k i} at_k := by
    obtain ⟨j, at_copy, subject, op, -⟩ := code at_k
    exact ⟨j, at_copy, subject, op⟩
  follow {k i l next?} at_k target followed := by
    cases l with
    | empty =>
      rw [empty]
      have lt : k < p.size := (Array.getElem?_eq_some_iff.1 at_k).1
      by_cases more : k + 1 < p.size
      · obtain ⟨j, at_next, -⟩ := code (Array.getElem?_eq_getElem more)
        have lt' : offset + (k + 1) < q.size := (Array.getElem?_eq_some_iff.1 at_next).1
        rw [follow_empty more] at followed
        cases followed
        exact follow_empty lt'
      · rw [Program.follow, if_neg more] at followed
        cases followed
        exact ends (by omega)
    | exit =>
      cases followed
      exact exit at_k (target.resolve_left Label.noConfusion)
    | numbered n =>
      obtain ⟨next, found, rfl⟩ := follow_numbered_eq_ok.1 followed
      obtain ⟨-, i', at_next, own⟩ := assembled.position?_eq_some_iff.1 found
      have at_next : p.instructions[next]? = some i' := by simpa using at_next
      obtain ⟨j, at_copy, -, -, carries⟩ := code at_next
      obtain ⟨m, renamed⟩ := numbered at_next own
      rw [own] at carries
      have carries := (carries Label.noConfusion).trans renamed
      rw [renamed]
      exact follow_numbered_eq_ok.2 ⟨offset + next, assembled'.position?_eq_some_iff.2
        ⟨Label.noConfusion, j, by simpa using at_copy, carries⟩, rfl⟩

/-- A machine that starts the copy with the same values stands where the program does. -/
theorem Machine.shadows_start {p q : Program} {vars : List Variable}
    {var : Variable → Variable} {s s' : Store} (size : q.size = p.size)
    (mirrors : Mirrors vars var s s') : Shadows vars var 0 none (start p s) (start q s') where
  next := by
    unfold start
    rw [size]
    split <;> rfl
  store := mirrors

/-- Two visits, of an instruction and of its copy, after which the copy still stands
where the program does. Only copied variables have been written. -/
structure Visit.Shadows (vars : List Variable) (var : Variable → Variable) (offset : Nat)
    (after : Option Nat) (m' : Machine) (v v' : Visit) : Prop where
  cost : v'.cost = v.cost
  machine : v.after.Shadows vars var offset after v'.after
  frame : ∀ w, (∀ u ∈ vars, var u ≠ w) → v'.after.store.get w = m'.store.get w

section Lockstep

variable {answering answering' : Answering} {p q : Program} {var : Variable → Variable}
  {label : Label → Label} {offset : Nat} {after : Option Nat} {cut : Option RunError → Prop}
  {m m' : Machine}

theorem Instruction.effect_agrees {i j : Instruction} {s s' : Store}
    (op : j.op = i.op.rename var label)
    (calls : ∀ c, i.op.call? = some c →
      Attempt.Agrees cut Eq (answering c s) (answering' (c.rename var) s')) :
    Attempt.Agrees cut (fun e e' => ∃ y, e = i.reaction s y ∧ e' = j.reaction s' y)
      (i.effect answering s) (j.effect answering' s') := by
  have calls' : j.op.call? = i.op.call?.map (·.rename var) := by
    rw [op]
    cases i.op <;> rfl
  cases called : i.op.call? with
  | none =>
    rw [called] at calls'
    rw [effect_of_no_call called, effect_of_no_call calls']
    exact .of_pure ⟨_, rfl, rfl⟩
  | some c =>
    rw [called] at calls'
    rw [effect_of_call called, effect_of_call calls']
    refine (calls c called).bind ?_
    rintro y _ rfl
    exact .of_pure ⟨y, rfl, rfl⟩

/-- The calls that the machine makes next are answered alike, wherever their values are. -/
def Machine.CallsAgree (cut : Option RunError → Prop) (answering answering' : Answering)
    (p : Program) (var : Variable → Variable) (m : Machine) : Prop :=
  ∀ k i c s', m.next? = some k → p.instructions[k]? = some i → i.op.call? = some c →
    Mirrors p.vars var m.store s' →
      Attempt.Agrees cut Eq (answering c m.store) (answering' (c.rename var) s')

/-- A program and its copy make their steps together. -/
theorem Program.Copy.step_agrees (copy : p.Copy q var label offset after)
    (assembled : p.Assembled) (shadows : m.Shadows p.vars var offset after m') {k : Nat}
    (next : m.next? = some k) (lt : k < p.size)
    (calls : m.CallsAgree cut answering answering' p var) :
    Attempt.Agrees cut
      (fun v? v?' => ∃ v v', v? = some v ∧ v?' = some v' ∧
        v.Shadows p.vars var offset after m' v')
      (m.step answering p) (m'.step answering' q) := by
  have at_k : p.instructions[k]? = some p.instructions[k] := Array.getElem?_eq_getElem lt
  generalize p.instructions[k] = i at at_k
  obtain ⟨j, at_copy, subject, op⟩ := copy.code at_k
  have next' : m'.next? = some (offset + k) := by rw [shadows.next, next, placed]
  have mem := assembled.vars_subset at_k
  rw [Machine.step_of_instruction next at_k, Machine.step_of_instruction next' at_copy]
  refine (Instruction.effect_agrees op fun c called =>
    calls k i c _ next at_k called shadows.store).bind ?_
  rintro _ _ ⟨y, rfl, rfl⟩
  obtain ⟨mirrors, jump, cycles⟩ :=
    Instruction.reaction_renamed (y := y) subject op copy.empty copy.injective mem shadows.store
  obtain ⟨next?, followed⟩ := assembled.follow_total at_k (Instruction.jump_reaction (y := y))
  rw [jump, copy.follow at_k Instruction.jump_reaction followed, followed]
  have base : j.baseCycles = i.baseCycles := by
    rw [Instruction.baseCycles, Instruction.kind, op, Operation.kind_rename]
    rfl
  refine .of_pure ⟨_, _, rfl, rfl, ?_⟩
  exact {
    cost := by simp only [base, cycles]
    machine := ⟨rfl, mirrors⟩
    frame := fun w outside =>
      Instruction.get_reaction_of_ne (subject ▸ outside _ (mem _ (List.mem_cons_self ..))) }

/-- A program and its copy halt together, with the same values and cycles. -/
theorem Program.Copy.toHalt_agrees (copy : p.Copy q var label 0 none) (assembled : p.Assembled)
    {limit limit' : Nat} (le : limit ≤ limit') (short : limit < limit' → cut none)
    (inRange : m.InRange p) (shadows : m.Shadows p.vars var 0 none m')
    (cycles : m'.cycles = m.cycles)
    (calls : ∀ m₁, m.Leads answering p m₁ → m₁.CallsAgree cut answering answering' p var) :
    Attempt.Agrees cut (fun m m' => Mirrors p.vars var m.store m'.store ∧ m'.cycles = m.cycles)
      (m.toHalt answering p limit) (m'.toHalt answering' q limit') := by
  induction limit generalizing limit' m m' with
  | zero =>
    cases limit' with
    | zero => exact .of_stop none
    | succ n => exact .of_cut (short (Nat.succ_pos n)) _
  | succ limit ih =>
    obtain ⟨limit', rfl⟩ : ∃ n, limit' = n + 1 := ⟨limit' - 1, by omega⟩
    rw [Machine.toHalt_succ, Machine.toHalt_succ]
    cases next : m.next? with
    | none =>
      have next' : m'.next? = none := by rw [shadows.next, next, placed]
      rw [Machine.step_of_halted next, Machine.step_of_halted next']
      exact .of_pure ⟨shadows.store, cycles⟩
    | some k =>
      refine (copy.step_agrees assembled shadows next (inRange k next)
        (calls m (.refl m))).with_values.bind ?_
      rintro _ _ ⟨⟨v, v', rfl, rfl, after⟩, made, made'⟩
      have made := congrArg ExceptT.run made
      have made' := congrArg ExceptT.run made'
      refine ih (by omega) (fun lt => short (by omega)) (Machine.InRange.step assembled made)
        after.machine ?_ fun m₁ leads => calls m₁ (.step made leads)
      rw [Machine.cycles_of_step made, Machine.cycles_of_step made', cycles, after.cost]

end Lockstep

end SLanguage
