import SLanguage.Proofs.Assembly

/-! Which instructions are assembled, and into what. A label that is carried a second time is
refused where that happens first; then the first jump to a numbered label that nothing carries
is; all else is assembled. The indexes of the program then tell where its labels stand and
which variables occur, and its supply of names is past all that occur and no further. -/

namespace SLanguage.Program

/-- It holds of the thing at the place, and of nothing at an earlier place. -/
def First {α : Type} (P : α → Nat → Prop) (a : α) (k : Nat) : Prop :=
  P a k ∧ ∀ j < k, ∀ b, ¬ P b j

theorem first_succ {α : Type} {P Q : α → Nat → Prop} (none : ∀ a, ¬ P a 0)
    (later : ∀ a k, P a (k + 1) ↔ Q a k) {a : α} {k : Nat} (first : First Q a k) :
    First P a (k + 1) := by
  refine ⟨(later a k).2 first.1, fun j lt b holds => ?_⟩
  cases j with
  | zero => exact none b holds
  | succ j => exact first.2 j (Nat.lt_of_succ_lt_succ lt) b ((later b j).1 holds)

theorem never_of_succ {α : Type} {P Q : α → Nat → Prop} (none : ∀ a, ¬ P a 0)
    (later : ∀ a k, P a (k + 1) ↔ Q a k) (never : ∀ a k, ¬ Q a k) (a : α) (k : Nat) :
    ¬ P a k := by
  cases k with
  | zero => exact none a
  | succ k => exact fun holds => never a k ((later a k).1 holds)

/-- The instruction at the place carries the label, and an earlier one does. -/
def Repeated (instructions : List Instruction) (l : Label) (k : Nat) : Prop :=
  Carried instructions l k ∧ ∃ j < k, Carried instructions l j

/-- The instruction at the place jumps to the number, which no instruction carries. -/
def Stray (instructions : List Instruction) (n : Serial) (k : Nat) : Prop :=
  (∃ i, instructions[k]? = some i ∧ i.target? = some (.numbered n)) ∧
    ∀ j, ¬ Carried instructions (.numbered n) j

section Labels

variable {positions filed : Std.TreeMap Label Nat} {instructions rest : List Instruction}
  {i : Instruction} {l : Label} {k : Nat}

/-- The label at the place is filed already, or an earlier instruction carries it. -/
def Taken (positions : Std.TreeMap Label Nat) (instructions : List Instruction) (l : Label)
    (k : Nat) : Prop :=
  Carried instructions l k ∧ (l ∈ positions ∨ ∃ j < k, Carried instructions l j)

theorem taken_cons_zero :
    Taken positions (i :: rest) l 0 ↔ l ≠ .empty ∧ i.label = l ∧ l ∈ positions := by
  simp [Taken, Carried, and_assoc]

theorem taken_cons_succ :
    Taken positions (i :: rest) l (k + 1) ↔
      Carried rest l k ∧ (l ∈ positions ∨ i.label = l ∨ ∃ j < k, Carried rest l j) := by
  refine and_congr_right fun carried => or_congr_right ⟨?_, ?_⟩
  · rintro ⟨j, lt, earlier⟩
    obtain ⟨-, -, same⟩ | ⟨j, rfl, earlier⟩ := carried_cons.1 earlier
    · exact .inl same
    · exact .inr ⟨j, Nat.lt_of_succ_lt_succ lt, earlier⟩
  · rintro (same | ⟨j, lt, earlier⟩)
    · exact ⟨0, Nat.succ_pos k, carried_cons.2 (.inl ⟨rfl, carried.1, same⟩)⟩
    · exact ⟨j + 1, Nat.succ_lt_succ lt, earlier⟩

theorem mem_insert_label (positions : Std.TreeMap Label Nat) (own l : Label) (k : Nat) :
    l ∈ positions.insert own k ↔ own = l ∨ l ∈ positions := by
  rw [Std.TreeMap.mem_insert, Std.LawfulEqCmp.compare_eq_iff_eq]

/-- Filing the labels stops at the first that is taken, and only there. -/
theorem indexLabels_cases (name : String) (instructions : List Instruction) (k : Nat)
    (positions : Std.TreeMap Label Nat) :
    (∃ l n, First (Taken positions instructions) l n ∧
        indexLabels name instructions k positions = .error (.duplicateLabel name l)) ∨
      (∀ l n, ¬ Taken positions instructions l n) ∧
        ∃ filed, indexLabels name instructions k positions = .ok filed := by
  induction instructions generalizing k positions with
  | nil => exact .inr ⟨fun l n taken => by simp [Taken, Carried] at taken, positions, rfl⟩
  | cons i rest ih =>
    -- What happens at a later place is what happens in the rest, with the head filed.
    have shift (positions' : Std.TreeMap Label Nat)
        (none : ∀ l, ¬ Taken positions (i :: rest) l 0)
        (later : ∀ l n, Taken positions (i :: rest) l (n + 1) ↔ Taken positions' rest l n)
        (same : indexLabels name (i :: rest) k positions =
          indexLabels name rest (k + 1) positions') :
        (∃ l n, First (Taken positions (i :: rest)) l n ∧
            indexLabels name (i :: rest) k positions = .error (.duplicateLabel name l)) ∨
          (∀ l n, ¬ Taken positions (i :: rest) l n) ∧
            ∃ filed, indexLabels name (i :: rest) k positions = .ok filed := by
      rw [same]
      obtain ⟨l, n, first, refused⟩ | ⟨never, indexed⟩ := ih (k + 1) positions'
      · exact .inl ⟨l, n + 1, first_succ none later first, refused⟩
      · exact .inr ⟨never_of_succ none later never, indexed⟩
    by_cases unlabelled : i.label.isEmpty
    · have absent : i.label = .empty := isEmpty_iff.1 unlabelled
      refine shift positions (fun l taken => ?_) (fun l n => ?_) ?_
      · obtain ⟨ne, same, -⟩ := taken_cons_zero.1 taken
        exact ne (same.symm.trans absent)
      · rw [taken_cons_succ]
        refine and_congr_right fun carried => or_congr_right ?_
        rw [or_iff_right fun same => carried.1 (same.symm.trans absent)]
      · rw [indexLabels, if_pos unlabelled]
    · have labelled : i.label ≠ .empty := fun absent => unlabelled (isEmpty_iff.2 absent)
      by_cases old : i.label ∈ positions
      · refine .inl ⟨i.label, 0, ⟨taken_cons_zero.2 ⟨labelled, rfl, old⟩, ?_⟩, ?_⟩
        · exact fun j lt => absurd lt (Nat.not_lt_zero j)
        · rw [indexLabels, if_neg unlabelled, if_pos (Std.TreeMap.mem_iff_contains.1 old)]
      · refine shift (positions.insert i.label k) (fun l taken => ?_) (fun l n => ?_) ?_
        · obtain ⟨-, rfl, filed⟩ := taken_cons_zero.1 taken
          exact old filed
        · rw [taken_cons_succ, Taken, mem_insert_label, ← or_assoc, or_comm (a := l ∈ positions)]
        · rw [indexLabels, if_neg unlabelled,
            if_neg fun contains => old (Std.TreeMap.mem_iff_contains.2 contains)]

theorem taken_empty : Taken ∅ instructions l k ↔ Repeated instructions l k := by
  refine and_congr_right fun _ => ?_
  rw [or_iff_right Std.TreeMap.not_mem_emptyc]

theorem repeated_numbered : Repeated (numbered instructions) l k ↔ Repeated instructions l k := by
  simp only [Repeated, carried_numbered]

theorem mem_indexLabels {name : String}
    (indexed : indexLabels name (numbered instructions) 0 ∅ = .ok filed) (l : Label) :
    l ∈ filed ↔ ∃ j, Carried instructions l j := by
  rw [Std.TreeMap.mem_iff_isSome_getElem?, Option.isSome_iff_exists]
  refine exists_congr fun j => ?_
  rw [getElem?_indexLabels indexed]
  simp [carried_numbered]

/-- The jump that is reported is the first stray one. -/
theorem strayJump?_cases (indexed : ∀ l, l ∈ filed ↔ ∃ j, Carried instructions l j) :
    (∃ n k, First (Stray instructions) n k ∧
        strayJump? filed (numbered instructions) = some (.numbered n, k + 1)) ∨
      (∀ n k, ¬ Stray instructions n k) ∧ strayJump? filed (numbered instructions) = none := by
  have unanswered {n : Serial} : (∀ j, ¬ Carried instructions (.numbered n) j) ↔
      filed.contains (.numbered n) = false := by
    rw [← not_exists, ← indexed, Std.TreeMap.mem_iff_contains, Bool.not_eq_true]
  cases jump : strayJump? filed (numbered instructions) with
  | none =>
    refine .inr ⟨?_, rfl⟩
    rintro n k ⟨⟨i, at_k, target⟩, stray⟩
    have mem : { i with number := k + 1 } ∈ numbered instructions :=
      mem_numbered.2 ⟨k, i, at_k, rfl⟩
    obtain ⟨j, found⟩ := strayJump?_eq_none_iff.1 jump _ mem n target
    obtain ⟨j, carried⟩ := (indexed _).1
      (Std.TreeMap.mem_iff_isSome_getElem?.2 (Option.isSome_iff_exists.2 ⟨j, found⟩))
    exact stray j carried
  | some reported =>
    obtain ⟨before, at_k, after, parts, given, silent⟩ := List.findSome?_eq_some_iff.1 jump
    have place {j : Nat} (le : j ≤ before.length) :
        (before ++ at_k :: after)[j]? = instructions[j]?.map fun i => { i with number := j + 1 } :=
      parts ▸ getElem?_numbered instructions j
    obtain ⟨i, found, rfl⟩ : ∃ i, instructions[before.length]? = some i ∧
        { i with number := before.length + 1 } = at_k := by
      have here := place (Nat.le_refl _)
      rw [List.getElem?_append_right (Nat.le_refl _), Nat.sub_self] at here
      exact Option.map_eq_some_iff.1 here.symm
    split at given
    · rename_i n target
      split at given
      · cases given
      · rename_i missing
        cases given
        refine .inl ⟨n, before.length, ⟨⟨⟨i, found, target⟩, ?_⟩, ?_⟩, rfl⟩
        · exact unanswered.2 (Bool.eq_false_iff.2 missing)
        · rintro j lt m ⟨⟨i', at_j, target'⟩, stray⟩
          have here := place (Nat.le_of_lt lt)
          rw [List.getElem?_append_left lt, at_j] at here
          have quiet := silent _ (List.mem_of_getElem? here)
          have target' : ({ i' with number := j + 1 } : Instruction).target? =
            some (.numbered m) := target'
          simp [target', unanswered.1 stray] at quiet
    · cases given

end Labels

/-- Some instruction names the variable, in the arguments of a call at any depth too. -/
def Occurs (instructions : List Instruction) (v : Variable) : Prop :=
  ∃ i ∈ instructions, v ∈ i.vars

/-- The number is that of a label that some instruction carries or jumps to. -/
def Uses (instructions : List Instruction) (n : Serial) : Prop :=
  ∃ i ∈ instructions, i.label = .numbered n ∨ i.target? = some (.numbered n)

/-- What a program holds that is assembled from instructions and a supply of names. -/
structure Indexes (p : Program) (given : Header) (d : Nat) (is : List Instruction)
    (supply : Names) : Prop where
  header : p.header = given
  degree : p.degree = d
  instructions : ∀ k : Nat,
    p.instructions[k]? = is[k]?.map fun i => { i with number := k + 1 }
  position : ∀ l k, p.position? l = some k ↔ l ≠ .empty ∧ ∃ i, is[k]? = some i ∧ i.label = l
  inputs : ∀ v, v ∈ p.inputs.toList ↔ v.isInput ∧ Occurs is v
  works : ∀ v, v ∈ p.works.toList ↔ v.isWork ∧ Occurs is v
  inputs_ascending : p.inputs.toList.Pairwise fun v w => v.serial < w.serial
  works_ascending : p.works.toList.Pairwise fun v w => v.serial < w.serial
  arity_ge : ∀ n, Occurs is (.input n) → n.val ≤ p.arity
  arity_mem : p.arity = 0 ∨ ∃ n, Occurs is (.input n) ∧ n.val = p.arity
  /-- The next label is the least number past the supply and past all labels in use. -/
  nextLabel : ∀ bound, p.names.nextLabel ≤ bound ↔
    supply.nextLabel ≤ bound ∧ ∀ n, Uses is n → n.val + 1 ≤ bound
  /-- The next work serial is the least one past the supply and past all that occur. -/
  nextWork : ∀ bound, p.names.nextWork ≤ bound ↔
    supply.nextWork ≤ bound ∧ ∀ n, Occurs is (.work n) → n.val + 1 ≤ bound

section Indexes

variable {instructions : List Instruction} {p : Program}

/-- Numbering changes nothing but numbers. -/
theorem exists_mem_numbered {P : Instruction → Prop}
    (same : ∀ i n, P { i with number := n } ↔ P i) :
    (∃ j ∈ numbered instructions, P j) ↔ ∃ i ∈ instructions, P i := by
  constructor
  · rintro ⟨j, mem, holds⟩
    obtain ⟨k, i, at_k, rfl⟩ := mem_numbered.1 mem
    exact ⟨i, List.mem_of_getElem? at_k, (same i _).1 holds⟩
  · rintro ⟨i, mem, holds⟩
    obtain ⟨k, at_k⟩ := List.mem_iff_getElem?.1 mem
    exact ⟨_, mem_numbered.2 ⟨k, i, at_k, rfl⟩, (same i _).2 holds⟩

theorem occurs_numbered {v : Variable} :
    Occurs (numbered instructions) v ↔ Occurs instructions v :=
  exists_mem_numbered fun _ _ => Iff.rfl

theorem uses_numbered {n : Serial} : Uses (numbered instructions) n ↔ Uses instructions n :=
  exists_mem_numbered fun _ _ => Iff.rfl

/-- Variables of one class are listed by their serials. -/
theorem ascending_of_class {vars : Std.TreeSet Variable} (kind : VariableClass)
    (kinds : ∀ v ∈ vars, v.kind = kind) : vars.toList.Pairwise fun v w => v.serial < w.serial := by
  refine Std.TreeSet.ordered_toList.imp_of_mem fun {v w} mem mem' lt => ?_
  have lt : v.rank < w.rank := Nat.compare_eq_lt.1 lt
  have same : v.kind = w.kind :=
    (kinds v (Std.TreeSet.mem_toList.1 mem)).trans (kinds w (Std.TreeSet.mem_toList.1 mem')).symm
  cases v <;> cases w <;> simp_all [Variable.rank, Variable.serial, Variable.kind]

theorem nextLabel_le (names : Names) (bound : Nat) :
    ((numbered instructions).foldl Names.reserve names).nextLabel ≤ bound ↔
      names.nextLabel ≤ bound ∧ ∀ n, Uses instructions n → n.val + 1 ≤ bound := by
  cases bound with
  | zero => simp [Names.nextLabel]
  | succ bound =>
    simp only [Names.nextLabel, Nat.add_le_add_iff_right, highestLabel_reserve_le,
      ← @uses_numbered instructions]
    exact and_congr_right fun _ =>
      ⟨fun below n ⟨i, mem, used⟩ => below i mem n used,
        fun below i mem n used => below n ⟨i, mem, used⟩⟩

theorem nextWork_le (names : Names) (bound : Nat) :
    ((numbered instructions).foldl Names.reserve names).nextWork ≤ bound ↔
      names.nextWork ≤ bound ∧ ∀ n, Occurs instructions (.work n) → n.val + 1 ≤ bound := by
  cases bound with
  | zero => simp [Names.nextWork]
  | succ bound =>
    simp only [Names.nextWork, Nat.add_le_add_iff_right, highestWork_reserve_le,
      ← @occurs_numbered instructions]
    exact and_congr_right fun _ =>
      ⟨fun below n ⟨i, mem, occurs⟩ => below i mem n occurs,
        fun below i mem n occurs => below n ⟨i, mem, occurs⟩⟩

theorem indexes_of_assemble {header : Header} {degree : Nat} {names : Names}
    (built : assemble header degree instructions names = .ok p) :
    p.Indexes header degree instructions names := by
  have assembled : p.Assembled := ⟨_, _, _, _, built⟩
  have at_place := getElem?_of_assemble built
  obtain ⟨positions, -, -, eq⟩ := assemble_eq_ok built
  have toList : p.instructions.toList = numbered instructions := by rw [eq]
  have inputs (v : Variable) : v ∈ p.inputs ↔ v.isInput ∧ Occurs instructions v := by
    rw [assembled.mem_inputs_iff, toList, ← occurs_numbered, Occurs]
  have works (v : Variable) : v ∈ p.works ↔ v.isWork ∧ Occurs instructions v := by
    rw [assembled.mem_works_iff, toList, ← occurs_numbered, Occurs]
  constructor
  case header => rw [eq]
  case degree => rw [eq]
  case instructions => exact at_place
  case position =>
    intro l k
    rw [assembled.position?_eq_some_iff, toList, carried_numbered, Carried]
  case inputs => exact fun v => Std.TreeSet.mem_toList.trans (inputs v)
  case works => exact fun v => Std.TreeSet.mem_toList.trans (works v)
  case inputs_ascending =>
    refine ascending_of_class .input fun v mem => ?_
    have isInput := ((inputs v).1 mem).1
    cases v <;> first | rfl | cases isInput
  case works_ascending =>
    refine ascending_of_class .work fun v mem => ?_
    have isWork := ((works v).1 mem).1
    cases v <;> first | rfl | cases isWork
  case arity_ge => exact fun n occurs => assembled.serial_le_arity ((inputs _).2 ⟨rfl, occurs⟩)
  case arity_mem =>
    refine assembled.exists_serial_eq_arity.imp_right ?_
    rintro ⟨n, mem, top⟩
    exact ⟨n, ((inputs _).1 mem).2, top⟩
  case nextLabel =>
    rw [eq]
    exact nextLabel_le names
  case nextWork =>
    rw [eq]
    exact nextWork_le names

end Indexes

/-- Assembly refuses the first label that is repeated, then the first jump that goes nowhere,
and nothing else. What it accepts is numbered in order, and its indexes are complete. -/
theorem assemble_cases (header : Header) (degree : Nat) (instructions : List Instruction)
    (names : Names) :
    (∃ l k, First (Repeated instructions) l k ∧
      assemble header degree instructions names = .error (.duplicateLabel header.name l)) ∨
    (∀ l k, ¬ Repeated instructions l k) ∧
      ((∃ n k, First (Stray instructions) n k ∧
        assemble header degree instructions names =
          .error (.undefinedLabel header.name (.numbered n) (k + 1))) ∨
      (∀ n k, ¬ Stray instructions n k) ∧
        ∃ p, assemble header degree instructions names = .ok p ∧
          p.Indexes header degree instructions names) := by
  have repeats (l : Label) (k : Nat) :
      Taken ∅ (numbered instructions) l k ↔ Repeated instructions l k :=
    taken_empty.trans repeated_numbered
  obtain ⟨l, k, first, refused⟩ | ⟨never, positions, indexed⟩ :=
    indexLabels_cases header.name (numbered instructions) 0 ∅
  · refine .inl ⟨l, k, ⟨(repeats l k).1 first.1, ?_⟩, ?_⟩
    · exact fun j lt m repeated => first.2 j lt m ((repeats m j).2 repeated)
    · unfold assemble
      simp [refused, bind, Except.bind]
  · refine .inr ⟨fun l k repeated => never l k ((repeats l k).2 repeated), ?_⟩
    obtain ⟨n, k, first, reported⟩ | ⟨answered, silent⟩ :=
      strayJump?_cases (mem_indexLabels indexed)
    · refine .inl ⟨n, k, first, ?_⟩
      unfold assemble
      simp [indexed, reported, bind, Except.bind, throw, throwThe, MonadExceptOf.throw]
    · have built : ∃ p, assemble header degree instructions names = .ok p := by
        unfold assemble
        simp [indexed, silent, bind, Except.bind, pure, Except.pure]
      obtain ⟨p, built⟩ := built
      exact .inr ⟨answered, p, built, indexes_of_assemble built⟩

end SLanguage.Program
