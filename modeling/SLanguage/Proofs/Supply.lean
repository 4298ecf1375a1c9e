import SLanguage.Proofs.Assembly

/-! The supply of fresh names. The past of a supply is every name that it has seen or handed
out. What it hands out is higher than every name of its kind in its past, and there is nothing
left to hand out once the last name of the kind is there. The two kinds do not meet. -/

namespace SLanguage

/-- The last serial there is. -/
def Serial.greatest : Serial where
  val := last
  val_pos := by decide
  val_le := Nat.le_refl _

inductive Name where
  | label (l : Label)
  | var (v : Variable)
deriving DecidableEq

namespace Name

def label? : Name → Option Label
  | label l => some l
  | var _ => none

def var? : Name → Option Variable
  | label _ => none
  | var v => some v

end Name

/-- Every name that an instruction uses: its label, its target and its variables. -/
def Instruction.names (i : Instruction) : List Name :=
  .label i.label :: (i.target?.toList.map .label ++ i.vars.map .var)

/-- Every name that is used in a program, in order. -/
def Program.mentioned (p : Program) : List Name :=
  p.instructions.toList.flatMap Instruction.names

namespace Instruction

variable {i : Instruction}

theorem label_mem_names {l : Label} : .label l ∈ i.names ↔ i.label = l ∨ i.target? = some l := by
  simp [names, eq_comm]

theorem var_mem_names {v : Variable} : .var v ∈ i.names ↔ v ∈ i.vars := by
  simp [names]

end Instruction

namespace Names

/-- What a supply can be asked for. -/
inductive Request where
  | label
  | work
deriving DecidableEq

namespace Request

/-- The name of the kind with a number. -/
def name : Request → Serial → Name
  | label, n => .label (.numbered n)
  | work, n => .var (.work n)

def exhausted : Request → OutOfNames
  | label => .labels
  | work => .workVariables

theorem name_inj {r r' : Request} {n n' : Serial} (same : r.name n = r'.name n') :
    r = r' ∧ n = n' := by
  cases r <;> cases r' <;> cases same <;> exact ⟨rfl, rfl⟩

end Request

/-- The highest number of a kind that the supply knows of. -/
def highest (names : Names) : Request → Nat
  | .label => names.highestLabel
  | .work => names.highestWork

def ask (names : Names) : Request → Except OutOfNames (Name × Names)
  | .label => names.drawLabel.map fun drawn => (.label drawn.1, drawn.2)
  | .work => names.drawWork.map fun drawn => (.var drawn.1, drawn.2)

def reply (names : Names) (r : Request) : Except OutOfNames Name :=
  (names.ask r).map Prod.fst

/-- The supply after a request. It stays as it is when there is nothing to hand out. -/
def next (names : Names) (r : Request) : Names :=
  match names.ask r with
  | .ok (_, after) => after
  | .error _ => names

def replies : Names → List Request → List (Except OutOfNames Name)
  | _, [] => []
  | names, r :: rest => names.reply r :: (names.next r).replies rest

/-- The names that are handed out for requests in a row. -/
def handed (names : Names) (requests : List Request) : List Name :=
  (names.replies requests).filterMap Except.toOption

def afterAll (names : Names) (requests : List Request) : Names :=
  requests.foldl next names

/-- How a supply came about, told as the names that it has seen and handed out so far. -/
inductive HasPast : Names → List Name → Prop where
  | new : HasPast {} []
  | seen {names : Names} {past : List Name} (before : HasPast names past) (i : Instruction) :
      HasPast (names.reserve i) (past ++ i.names)
  | handed {names : Names} {past : List Name} {r : Request} {name : Name}
      (before : HasPast names past) (reply : names.reply r = .ok name) :
      HasPast (names.next r) (past ++ [name])

section Requests

variable (names : Names) {names' : Names} {r : Request}

/-- A request is granted with the next number, or refused because there is none. -/
theorem reply_cases (r : Request) :
    (∃ n : Serial, n.val = names.highest r + 1 ∧ names.reply r = .ok (r.name n) ∧
      ∀ r', (names.next r).highest r' = if r' = r then n.val else names.highest r') ∨
    (Serial.last ≤ names.highest r ∧ names.reply r = .error r.exhausted ∧
      names.next r = names) := by
  cases number : Serial.ofNat? (names.highest r + 1) with
  | some n =>
    refine .inl ⟨n, Serial.ofNat?_eq_some_iff.1 number, ?_⟩
    cases r with
    | label =>
      have drawn : names.drawLabel = .ok (.numbered n, { names with highestLabel := n.val }) := by
        rw [drawLabel, show Serial.ofNat? names.nextLabel = some n from number]
      rw [reply, next, ask, drawn]
      exact ⟨rfl, fun r' => by cases r' <;> rfl⟩
    | work =>
      have drawn : names.drawWork = .ok (.work n, { names with highestWork := n.val }) := by
        rw [drawWork, show Serial.ofNat? names.nextWork = some n from number]
      rw [reply, next, ask, drawn]
      exact ⟨rfl, fun r' => by cases r' <;> rfl⟩
  | none =>
    have full : Serial.last ≤ names.highest r := by
      by_contra below
      have le : names.highest r + 1 ≤ Serial.last := by omega
      rw [Serial.ofNat?, dif_pos ⟨Nat.succ_pos _, le⟩] at number
      cases number
    refine .inr ⟨full, ?_⟩
    cases r with
    | label =>
      have drawn : names.drawLabel = .error .labels := by
        rw [drawLabel, show Serial.ofNat? names.nextLabel = none from number]
      rw [reply, next, ask, drawn]
      exact ⟨rfl, rfl⟩
    | work =>
      have drawn : names.drawWork = .error .workVariables := by
        rw [drawWork, show Serial.ofNat? names.nextWork = none from number]
      rw [reply, next, ask, drawn]
      exact ⟨rfl, rfl⟩

variable {names}

theorem highest_le_next (r r' : Request) : names.highest r' ≤ (names.next r).highest r' := by
  obtain ⟨n, number, -, after⟩ | ⟨-, -, same⟩ := names.reply_cases r
  · rw [after]
    split
    · rename_i eq
      rw [number, eq]
      exact Nat.le_succ _
    · exact Nat.le_refl _
  · exact Nat.le_of_eq (congrArg (highest · r') same.symm)

theorem reply_eq_error_iff :
    (∃ e, names.reply r = .error e) ↔ Serial.last ≤ names.highest r := by
  obtain ⟨n, number, granted, -⟩ | ⟨full, refused, -⟩ := names.reply_cases r
  · have le : n.val ≤ Serial.last := n.val_le
    rw [granted]
    exact iff_of_false (fun ⟨e, eq⟩ => nomatch eq) (by omega)
  · exact iff_of_true ⟨_, refused⟩ full

/-- What is replied, and what is known after it, depends on the highest number of the kind. -/
theorem reply_congr (same : names.highest r = names'.highest r) :
    names.reply r = names'.reply r ∧ (names.next r).highest r = (names'.next r).highest r := by
  obtain ⟨n, number, granted, after⟩ | ⟨full, refused, stays⟩ := names.reply_cases r <;>
    obtain ⟨n', number', granted', after'⟩ | ⟨full', refused', stays'⟩ := names'.reply_cases r
  · have eq : n = n' := Serial.ext (by omega)
    rw [granted, granted', after, after', if_pos rfl, if_pos rfl, eq]
    exact ⟨rfl, rfl⟩
  · have le : n.val ≤ Serial.last := n.val_le
    omega
  · have le : n'.val ≤ Serial.last := n'.val_le
    omega
  · rw [refused, refused', stays, stays']
    exact ⟨rfl, same⟩

theorem highest_next_of_ne {r' : Request} (ne : r' ≠ r) :
    (names.next r).highest r' = names.highest r' := by
  obtain ⟨n, -, -, after⟩ | ⟨-, -, same⟩ := names.reply_cases r
  · rw [after, if_neg ne]
  · rw [same]

end Requests

section Pasts

variable {names : Names} {past : List Name} {r : Request}

theorem highest_reserve_le {i : Instruction} {bound : Nat} :
    (names.reserve i).highest r ≤ bound ↔
      names.highest r ≤ bound ∧ ∀ n, r.name n ∈ i.names → n.val ≤ bound := by
  have single : names.reserve i = [i].foldl Names.reserve names := rfl
  rw [single]
  cases r with
  | label =>
    refine Program.highestLabel_reserve_le.trans ?_
    simp [Request.name, Instruction.label_mem_names, highest]
  | work =>
    refine Program.highestWork_reserve_le.trans ?_
    simp [Request.name, Instruction.var_mem_names, highest]

namespace HasPast

/-- The highest number of a kind is the highest one in the past, or 0 if there is none. -/
theorem highest_le_iff (h : names.HasPast past) {bound : Nat} :
    names.highest r ≤ bound ↔ ∀ n, r.name n ∈ past → n.val ≤ bound := by
  induction h generalizing r with
  | new =>
    refine iff_of_true ?_ fun n mem => nomatch mem
    cases r <;> exact Nat.zero_le _
  | seen before i ih =>
    simp only [highest_reserve_le, ih, List.mem_append, or_imp, forall_and]
  | @handed names past r' name before reply ih =>
    obtain ⟨m, number, granted, after⟩ | ⟨-, refused, -⟩ := names.reply_cases r'
    · obtain rfl := Except.ok.inj (granted.symm.trans reply)
      simp only [List.mem_append, List.mem_singleton, or_imp, forall_and, ← ih, after]
      by_cases eq : r = r'
      · subst eq
        rw [if_pos rfl]
        constructor
        · intro le
          refine ⟨by omega, fun n same => ?_⟩
          rwa [(Request.name_inj same).2]
        · exact fun le => le.2 m rfl
      · rw [if_neg eq]
        exact ⟨fun le => ⟨le, fun n same => absurd (Request.name_inj same).1 eq⟩, And.left⟩
    · exact nomatch refused.symm.trans reply

theorem le_highest (h : names.HasPast past) {n : Serial} (mem : r.name n ∈ past) :
    n.val ≤ names.highest r :=
  h.highest_le_iff.1 (Nat.le_refl _) n mem

/-- A request is refused once the last name of its kind is in the past. -/
theorem reply_eq_error_iff (h : names.HasPast past) :
    (∃ e, names.reply r = .error e) ↔ r.name .greatest ∈ past := by
  rw [Names.reply_eq_error_iff]
  constructor
  · intro full
    by_contra absent
    have below : names.highest r ≤ Serial.last - 1 := by
      refine h.highest_le_iff.2 fun n mem => ?_
      have le : n.val ≤ Serial.last := n.val_le
      have ne : n.val ≠ Serial.last := fun eq =>
        absent (Serial.ext (b := .greatest) eq ▸ mem)
      omega
    have pos : 0 < Serial.last := by decide
    omega
  · exact fun mem => h.le_highest mem

theorem foldl_reserve (h : names.HasPast past) (is : List Instruction) :
    (is.foldl reserve names).HasPast (past ++ is.flatMap Instruction.names) := by
  induction is generalizing names past with
  | nil =>
    rw [List.flatMap_nil, List.append_nil]
    exact h
  | cons i is ih =>
    rw [List.flatMap_cons, ← List.append_assoc]
    exact ih (h.seen i)

/-- Assembly looks at every instruction, and at nothing else. -/
theorem of_assemble (h : names.HasPast past) {header : Header} {degree : Nat}
    {is : List Instruction} {p : Program}
    (assembled : Program.assemble header degree is names = .ok p) :
    p.names.HasPast (past ++ p.mentioned) := by
  obtain ⟨positions, -, -, rfl⟩ := Program.assemble_eq_ok assembled
  exact h.foldl_reserve _

end HasPast

end Pasts

section Rounds

variable {names : Names} {past : List Name} {requests : List Request}

theorem handed_cons_of_ok {r : Request} {name : Name} (reply : names.reply r = .ok name) :
    names.handed (r :: requests) = name :: (names.next r).handed requests := by
  rw [handed, replies, reply]
  rfl

theorem handed_cons_of_error {r : Request} {e : OutOfNames} (reply : names.reply r = .error e) :
    names.handed (r :: requests) = (names.next r).handed requests := by
  rw [handed, replies, reply]
  rfl

theorem afterAll_cons (r : Request) :
    names.afterAll (r :: requests) = (names.next r).afterAll requests := rfl

theorem HasPast.afterAll (h : names.HasPast past) (requests : List Request) :
    (names.afterAll requests).HasPast (past ++ names.handed requests) := by
  induction requests generalizing names past with
  | nil =>
    change names.HasPast (past ++ [])
    rwa [List.append_nil]
  | cons r requests ih =>
    rw [afterAll_cons]
    obtain ⟨n, -, granted, -⟩ | ⟨-, refused, same⟩ := names.reply_cases r
    · rw [handed_cons_of_ok granted, List.append_cons]
      exact ih (h.handed granted)
    · rw [handed_cons_of_error refused, same]
      exact ih h

theorem replies_getElem? {k : Nat} {r : Request} (at_k : requests[k]? = some r) :
    (names.replies requests)[k]? = some ((names.afterAll (requests.take k)).reply r) := by
  induction requests generalizing names k with
  | nil => cases at_k
  | cons r' requests ih =>
    cases k with
    | zero =>
      cases at_k
      rfl
    | succ k => exact ih at_k

theorem handed_take_subset {j k : Nat} (le : j ≤ k) :
    names.handed (requests.take j) ⊆ names.handed (requests.take k) := by
  induction requests generalizing names j k with
  | nil =>
    rw [List.take_nil, List.take_nil]
    exact List.Subset.refl _
  | cons r requests ih =>
    cases j with
    | zero => exact List.nil_subset _
    | succ j =>
      obtain ⟨k, rfl⟩ := Nat.exists_eq_add_of_lt (Nat.lt_of_succ_le le)
      rw [List.take_succ_cons, List.take_succ_cons]
      have rest : (names.next r).handed (requests.take j) ⊆
          (names.next r).handed (requests.take (j + k)) := ih (Nat.le_add_right j k)
      cases reply : names.reply r with
      | ok name =>
        rw [handed_cons_of_ok reply, handed_cons_of_ok reply]
        exact List.cons_subset_cons name rest
      | error e =>
        rw [handed_cons_of_error reply, handed_cons_of_error reply]
        exact rest

/-- What is handed out is past what the supply knows of. -/
theorem exists_of_mem_handed {name : Name} (mem : name ∈ names.handed requests) :
    ∃ r n, name = r.name n ∧ names.highest r < n.val := by
  induction requests generalizing names with
  | nil => cases mem
  | cons r requests ih =>
    obtain ⟨n, number, granted, -⟩ | ⟨-, refused, -⟩ := names.reply_cases r
    · rw [handed_cons_of_ok granted] at mem
      obtain rfl | mem := List.mem_cons.1 mem
      · exact ⟨r, n, rfl, by omega⟩
      · obtain ⟨r', m, eq, lt⟩ := ih mem
        exact ⟨r', m, eq, Nat.lt_of_le_of_lt (highest_le_next r r') lt⟩
    · rw [handed_cons_of_error refused] at mem
      obtain ⟨r', m, eq, lt⟩ := ih mem
      exact ⟨r', m, eq, Nat.lt_of_le_of_lt (highest_le_next r r') lt⟩

/-- If both names are of one kind, the second has the higher number. -/
def Ascends (a b : Name) : Prop :=
  ∀ r n m, a = Request.name r n → b = Request.name r m → n.val < m.val

theorem pairwise_handed : (names.handed requests).Pairwise Ascends := by
  induction requests generalizing names with
  | nil => exact .nil
  | cons r requests ih =>
    obtain ⟨n, number, granted, after⟩ | ⟨-, refused, -⟩ := names.reply_cases r
    · rw [handed_cons_of_ok granted]
      refine .cons (fun name mem r' n' m first second => ?_) ih
      obtain ⟨r'', m', rfl, lt⟩ := exists_of_mem_handed mem
      obtain ⟨rfl, rfl⟩ := Request.name_inj first
      obtain ⟨rfl, rfl⟩ := Request.name_inj second
      rwa [after, if_pos rfl] at lt
    · rw [handed_cons_of_error refused]
      exact ih

/-- The replies to the requests of one kind do not depend on the other requests. -/
theorem replies_filter {names' : Names} {r : Request} (same : names.highest r = names'.highest r) :
    ((requests.zip (names.replies requests)).filter (·.1 = r)).map Prod.snd =
      names'.replies (requests.filter (· = r)) := by
  induction requests generalizing names names' with
  | nil => rfl
  | cons r' requests ih =>
    rw [replies, List.zip_cons_cons]
    by_cases eq : r' = r
    · subst eq
      obtain ⟨reply, after⟩ := reply_congr same
      rw [List.filter_cons_of_pos (by simp), List.filter_cons_of_pos (by simp), List.map_cons,
        replies, ih after, reply]
    · rw [List.filter_cons_of_neg (by simpa using eq), List.filter_cons_of_neg (by simpa using eq)]
      exact ih ((highest_next_of_ne (Ne.symm eq)).trans same)

end Rounds

/-- How a supply with a past answers requests in a row. -/
structure Supplies (names : Names) (past : List Name) (requests : List Request) : Prop where
  /-- A request is answered with a name of its kind, or with the reason that there is none. -/
  kinds (k : Nat) (r : Request) : requests[k]? = some r →
    (∃ n, (names.replies requests)[k]? = some (.ok (r.name n))) ∨
      (names.replies requests)[k]? = some (.error r.exhausted)
  labels : ((names.handed requests).filterMap Name.label?).Pairwise fun a b => a.rank < b.rank
  works : ((names.handed requests).filterMap Name.var?).Pairwise fun a b => a.rank < b.rank
  fresh : ∀ name ∈ names.handed requests, name ∉ past
  /-- A request is refused just if the last name of its kind has been seen or handed out. -/
  refused (k : Nat) (r : Request) : requests[k]? = some r →
    ((∃ e, (names.replies requests)[k]? = some (.error e)) ↔
      r.name .greatest ∈ past ++ names.handed (requests.take k))
  /-- Once a kind is refused, it stays refused. -/
  stays (j k : Nat) (r : Request) (e : OutOfNames) : j ≤ k →
    requests[j]? = some r → requests[k]? = some r →
    (names.replies requests)[j]? = some (.error e) →
    (names.replies requests)[k]? = some (.error e)
  /-- Requests of the other kind make no difference. -/
  apart (r : Request) : ((requests.zip (names.replies requests)).filter (·.1 = r)).map Prod.snd =
    names.replies (requests.filter (· = r))

variable {names : Names} {past : List Name}

/-- Every supply answers all requests like this. -/
theorem HasPast.supplies (h : names.HasPast past) (requests : List Request) :
    names.Supplies past requests := by
  have refused (k : Nat) (r : Request) (at_k : requests[k]? = some r) :
      (∃ e, (names.replies requests)[k]? = some (.error e)) ↔
        r.name .greatest ∈ past ++ names.handed (requests.take k) := by
    rw [replies_getElem? at_k, ← (h.afterAll (requests.take k)).reply_eq_error_iff]
    simp only [Option.some.injEq]
  have kinds (k : Nat) (r : Request) (at_k : requests[k]? = some r) :
      (∃ n, (names.replies requests)[k]? = some (.ok (r.name n))) ∨
        (names.replies requests)[k]? = some (.error r.exhausted) := by
    rw [replies_getElem? at_k]
    obtain ⟨n, -, granted, -⟩ | ⟨-, refused, -⟩ :=
      (names.afterAll (requests.take k)).reply_cases r
    · exact .inl ⟨n, congrArg some granted⟩
    · exact .inr (congrArg some refused)
  refine ⟨kinds, ?_, ?_, ?_, refused, ?_, fun r => replies_filter rfl⟩
  · refine List.pairwise_filterMap.2 (pairwise_handed.imp_of_mem ?_)
    intro a b mem_a mem_b ascends l at_a l' at_b
    obtain ⟨r, n, rfl, -⟩ := exists_of_mem_handed mem_a
    obtain ⟨r', n', rfl, -⟩ := exists_of_mem_handed mem_b
    cases r <;> cases at_a
    cases r' <;> cases at_b
    exact ascends .label n n' rfl rfl
  · refine List.pairwise_filterMap.2 (pairwise_handed.imp_of_mem ?_)
    intro a b mem_a mem_b ascends v at_a v' at_b
    obtain ⟨r, n, rfl, -⟩ := exists_of_mem_handed mem_a
    obtain ⟨r', n', rfl, -⟩ := exists_of_mem_handed mem_b
    cases r <;> cases at_a
    cases r' <;> cases at_b
    exact Nat.add_lt_add_left (ascends .work n n' rfl rfl) _
  · intro name mem known
    obtain ⟨r, n, rfl, lt⟩ := exists_of_mem_handed mem
    exact Nat.not_lt.2 (h.le_highest known) lt
  · intro j k r e le at_j at_k first
    have known := (refused j r at_j).1 ⟨e, first⟩
    have known' : r.name .greatest ∈ past ++ names.handed (requests.take k) := by
      rw [List.mem_append] at known ⊢
      exact known.imp_right fun mem => handed_take_subset le mem
    obtain ⟨e', second⟩ := (refused k r at_k).2 known'
    have reason {k : Nat} {e : OutOfNames} (at_k : requests[k]? = some r)
        (failed : (names.replies requests)[k]? = some (.error e)) : e = r.exhausted := by
      obtain ⟨n, granted⟩ | refused := kinds k r at_k
      · exact nomatch granted.symm.trans failed
      · exact Except.error.inj (Option.some.inj (failed.symm.trans refused))
    rw [second, reason at_j first, reason at_k second]

end Names

end SLanguage
