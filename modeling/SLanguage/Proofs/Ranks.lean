import SLanguage.Proofs.CallGraph

/-! Ranks. The rank of an instruction says for how many rounds it is lowered, given the ranks
of the programs that it calls: its own kind counts, and a call counts for one more than its
body and its arguments. Where calls form no cycle, the ranks of functions are found level by
level, down to functions that call none. -/

namespace SLanguage

section Definitions

variable (body : String → Nat)

mutual

def Argument.rank : Argument → Nat
  | .var _ => 0
  | .call f arguments => 1 + max 2 (max (body f) (Argument.rankOf arguments))

def Argument.rankOf : List Argument → Nat
  | [] => 0
  | a :: as => max a.rank (Argument.rankOf as)

end

def Call.rank (c : Call) : Nat :=
  1 + max 2 (max (body c.function) (Argument.rankOf body c.arguments))

def Instruction.rank (i : Instruction) : Nat :=
  match i.op with
  | .increase | .decrease | .jumpNotZero _ | .neutral => 0
  | .zeroVariable | .gotoLabel _ => 1
  | .assignment w => if w = i.subject then 1 else 2
  | .constantAssignment _ | .jumpZero _ => 2
  | .jumpEqualConstant _ _ | .jumpEqualVariable _ _ => 3
  | .quote c => c.rank body
  | .jumpEqualFunction c _ => 1 + c.rank body

/-- The highest rank of an instruction, and 0 if there is none. -/
def Program.rank (p : Program) : Nat :=
  (p.instructions.toList.map (Instruction.rank body)).foldr max 0

end Definitions

/-- Ranks of functions, as far as calls are followed to a depth. -/
def Functions.rankWithin (functions : Functions) : Nat → String → Nat
  | 0, _ => 0
  | depth + 1, name =>
    match functions.find? name with
    | some f => f.rank (functions.rankWithin depth)
    | none => 0

/-- The rank of the function of a name. No path of calls that is free of cycles is longer
than the table. -/
def Functions.rank (functions : Functions) (name : String) : Nat :=
  functions.rankWithin functions.items.length name

section Laws

variable {body body' : String → Nat}

theorem Argument.rankOf_le_iff {as : List Argument} {n : Nat} :
    Argument.rankOf body as ≤ n ↔ ∀ a ∈ as, a.rank body ≤ n := by
  induction as with
  | nil => simp [Argument.rankOf]
  | cons a as ih => rw [Argument.rankOf, Nat.max_le, ih, List.forall_mem_cons]

theorem Argument.rank_call (f : String) (as : List Argument) :
    (Argument.call f as).rank body = (⟨f, as⟩ : Call).rank body := by
  rw [Argument.rank, Call.rank]

mutual

theorem Argument.rank_congr : ∀ a : Argument, (∀ f ∈ a.functions, body f = body' f) →
    a.rank body = a.rank body'
  | .var _, _ => rfl
  | .call f as, same => by
    rw [Argument.functions, List.forall_mem_cons] at same
    rw [Argument.rank, Argument.rank, same.1, Argument.rankOf_congr as same.2]

theorem Argument.rankOf_congr : ∀ as : List Argument,
    (∀ f ∈ Argument.functionsOf as, body f = body' f) →
      Argument.rankOf body as = Argument.rankOf body' as
  | [], _ => rfl
  | a :: as, same => by
    rw [Argument.functionsOf, List.forall_mem_append] at same
    rw [Argument.rankOf, Argument.rankOf, Argument.rank_congr a same.1,
      Argument.rankOf_congr as same.2]

end

mutual

theorem Argument.rank_rename (var : Variable → Variable) :
    ∀ a : Argument, (a.rename var).rank body = a.rank body
  | .var _ => rfl
  | .call f as => by
    rw [Argument.rename, Argument.rank, Argument.rank, Argument.rankOf_rename var as]

theorem Argument.rankOf_rename (var : Variable → Variable) : ∀ as : List Argument,
    Argument.rankOf body (Argument.renameAll var as) = Argument.rankOf body as
  | [] => rfl
  | a :: as => by
    rw [Argument.renameAll, Argument.rankOf, Argument.rankOf, Argument.rank_rename var a,
      Argument.rankOf_rename var as]

end

theorem Call.rank_congr {c : Call} (same : ∀ f ∈ c.functions, body f = body' f) :
    c.rank body = c.rank body' := by
  rw [Call.functions, List.forall_mem_cons] at same
  rw [Call.rank, Call.rank, same.1, Argument.rankOf_congr _ same.2]

theorem Call.rank_rename (var : Variable → Variable) (c : Call) :
    (c.rename var).rank body = c.rank body := by
  rw [Call.rank, Call.rename, Argument.rankOf_rename, Call.rank]

namespace Instruction

theorem rank_congr {i : Instruction} (same : ∀ f, i.Calls f → body f = body' f) :
    i.rank body = i.rank body' := by
  unfold rank
  cases op : i.op with
  | quote c => exact Call.rank_congr fun f named => same f ⟨c, by rw [op]; rfl, named⟩
  | jumpEqualFunction c l =>
    exact congrArg (1 + ·) (Call.rank_congr fun f named => same f ⟨c, by rw [op]; rfl, named⟩)
  | _ => rfl

/-- A copy under other names has the same rank, if it keeps different variables apart. -/
theorem rank_renamed {i j : Instruction} {var : Variable → Variable} {label : Label → Label}
    (subject : j.subject = var i.subject) (op : j.op = i.op.rename var label)
    (injective : ∀ v ∈ i.vars, ∀ w ∈ i.vars, var v = var w → v = w) :
    j.rank body = i.rank body := by
  unfold rank
  rw [op, subject]
  cases own : i.op with
  | assignment w =>
    have operand : w ∈ i.vars := by simp [vars, own, Operation.operands]
    have itself : i.subject ∈ i.vars := List.mem_cons_self ..
    have same : var w = var i.subject ↔ w = i.subject :=
      ⟨injective w operand _ itself, congrArg var⟩
    simp only [Operation.rename, same]
  | quote c => exact Call.rank_rename var c
  | jumpEqualFunction c l => exact congrArg (1 + ·) (Call.rank_rename var c)
  | _ => rfl

theorem rank_eq_zero_iff {i : Instruction} : i.rank body = 0 ↔ i.isBasic = true := by
  have synthetic (k : Nat) : 1 + k ≠ 0 := by omega
  unfold rank isBasic kind Call.rank
  cases i.op with
  | assignment w => by_cases eq : w = i.subject <;> simp [eq, Operation.kind, Kind.isBasic]
  | quote c => exact iff_of_false (synthetic _) Bool.false_ne_true
  | jumpEqualFunction c l => exact iff_of_false (synthetic _) Bool.false_ne_true
  | _ => simp [Operation.kind, Kind.isBasic]

end Instruction

theorem Program.rank_le_iff {p : Program} {n : Nat} :
    p.rank body ≤ n ↔ ∀ i ∈ p.instructions.toList, i.rank body ≤ n := by
  unfold rank
  induction p.instructions.toList with
  | nil => simp
  | cons i is ih => rw [List.map_cons, List.foldr_cons, Nat.max_le, ih, List.forall_mem_cons]

theorem Program.rank_congr {p : Program} (same : ∀ name ∈ p.callees, body name = body' name) :
    p.rank body = p.rank body' := by
  refine congrArg (List.foldr max 0) (List.map_congr_left fun i mem => ?_)
  exact Instruction.rank_congr fun f calls => same f (mem_callees.2 ⟨i, mem, calls⟩)

theorem Program.rank_eq_zero_iff {p : Program} : p.rank body = 0 ↔ p.isBasic = true := by
  rw [← Nat.le_zero, rank_le_iff, isBasic, Array.all_eq_true_iff_forall_mem]
  simp only [Array.mem_toList_iff, Nat.le_zero, Instruction.rank_eq_zero_iff]

/-- Without calls three rounds are enough. -/
theorem Program.rank_le_three {p : Program} (silent : p.callees = []) : p.rank body ≤ 3 := by
  refine rank_le_iff.2 fun i mem => ?_
  have none : ∀ c, i.op.call? ≠ some c := by
    intro c calls
    have called := mem_callees.2 ⟨i, mem, c, calls, List.mem_cons_self ..⟩
    rw [silent] at called
    cases called
  unfold Instruction.rank
  cases op : i.op with
  | assignment w =>
    simp only
    split <;> decide
  | quote c => exact absurd (by rw [op]; rfl) (none c)
  | jumpEqualFunction c l => exact absurd (by rw [op]; rfl) (none c)
  | _ => simp

end Laws

namespace Functions

open Classical in
/-- How many functions a program reaches through calls, itself included. -/
noncomputable def reached (functions : Functions) (f : Program) : Nat :=
  functions.items.countP fun g => decide (Relation.ReflTransGen functions.Calls f g)

variable {functions : Functions} {name : String} {f g : Program}

theorem reached_pos (found : functions.find? name = some f) : 0 < functions.reached f :=
  List.countP_pos_iff.2 ⟨f, mem_items_of_find? found, by simp [Relation.ReflTransGen.refl]⟩

open Classical in
/-- A function that is in no cycle reaches more functions than its callees, which do not reach
it. -/
theorem reached_lt (acyclic : ¬ Relation.TransGen functions.Calls f f)
    (found : functions.find? name = some f) (calls : functions.Calls f g) :
    functions.reached g < functions.reached f := by
  refine CallGraph.countP_lt_of_mem _ (fun h reaches => ?_) (mem_items_of_find? found) ?_ ?_
  · exact decide_eq_true (.head calls (of_decide_eq_true reaches))
  · exact decide_eq_true Relation.ReflTransGen.refl
  · exact decide_eq_false fun back => acyclic (.head' calls back)

/-- A name resolves if all names that are called from its function on are known, and no function
there is in a cycle. -/
theorem resolves_of_acyclic (found : functions.find? name = some f)
    (known : ∀ g, Relation.ReflTransGen functions.Calls f g →
      ∀ inner ∈ g.callees, ∃ h, functions.find? inner = some h)
    (acyclic : ∀ g, Relation.ReflTransGen functions.Calls f g →
      ¬ Relation.TransGen functions.Calls g g) : functions.Resolves name := by
  generalize size : functions.reached f = n
  induction n using Nat.strongRecOn generalizing name f with
  | ind n ih =>
    refine .intro found fun inner called => ?_
    obtain ⟨g, at_g⟩ := known f .refl inner called
    have calls : functions.Calls f g := ⟨inner, called, at_g⟩
    exact ih _ (size ▸ reached_lt (acyclic f .refl) found calls) at_g
      (fun h reaches => known h (.head calls reaches))
      (fun h reaches => acyclic h (.head calls reaches)) rfl

/-- Once all calls have been followed, going deeper changes nothing. -/
theorem rankWithin_stable (resolves : functions.Resolves name)
    (found : functions.find? name = some f) {m n : Nat} (enough : functions.reached f ≤ m)
    (enough' : functions.reached f ≤ n) :
    functions.rankWithin m name = functions.rankWithin n name := by
  induction resolves generalizing f m n with
  | @intro name f' found' callees ih =>
    obtain rfl := Option.some.inj (found.symm.trans found')
    have pos := reached_pos found
    obtain ⟨m, rfl⟩ := Nat.exists_eq_succ_of_ne_zero (Nat.ne_of_gt (Nat.lt_of_lt_of_le pos enough))
    obtain ⟨n, rfl⟩ := Nat.exists_eq_succ_of_ne_zero (Nat.ne_of_gt (Nat.lt_of_lt_of_le pos enough'))
    rw [rankWithin, rankWithin, found]
    refine Program.rank_congr fun inner called => ?_
    obtain ⟨g, at_g⟩ := (callees inner called).exists_find?
    have acyclic := (Resolves.intro found callees).acyclic found
    have less := reached_lt acyclic found ⟨inner, called, at_g⟩
    exact ih inner called at_g (by omega) (by omega)

/-- The rank of a function is the rank of its body, with the ranks of what it calls. -/
theorem rank_eq (resolves : functions.Resolves name) (found : functions.find? name = some f) :
    functions.rank name = f.rank functions.rank := by
  have enough : functions.reached f ≤ functions.items.length := List.countP_le_length
  have deeper : functions.rank name = functions.rankWithin (functions.items.length + 1) name :=
    rankWithin_stable resolves found enough (Nat.le_succ_of_le enough)
  rw [deeper, rankWithin, found]
  rfl

end Functions

end SLanguage
